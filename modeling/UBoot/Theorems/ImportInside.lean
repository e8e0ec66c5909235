import UBoot.Theorems.WriteOnce

/-!
# An import stays in its data

The loop of `himport_r` looks at the size of its data between two entries only.
-/

namespace UBoot

open Lib Htab List

/-! ## Complete entries -/

/-- A byte that ends an entry. -/
def Ends (sep c : UInt8) : Prop := c = 0 ∨ c = sep

/-- A text in which no name ends. -/
def NameText (sep : UInt8) (k : List UInt8) : Prop := ∀ c ∈ k, c ≠ chEquals ∧ c ≠ 0 ∧ c ≠ sep

/-- A value and the byte that ends it. A backslash keeps the byte behind it from ending the value, unless that is a NUL. -/
inductive ValueText (sep : UInt8) : List UInt8 → Prop where
  | ended {e : UInt8} : Ends sep e → ValueText sep [e]
  | plain {c : UInt8} {t : List UInt8} : ¬Ends sep c → c ≠ chBackslash → ValueText sep t → ValueText sep (c :: t)
  | escape {d : UInt8} {t : List UInt8} : chBackslash ≠ sep → d ≠ 0 → ValueText sep t → ValueText sep (chBackslash :: d :: t)
  | beforeNul : chBackslash ≠ sep → ValueText sep [chBackslash, 0]

/-- A complete entry without the blanks before it, where `rest` is behind it. -/
inductive EntryText (sep : UInt8) (rest : List UInt8) : List UInt8 → Prop where
  | comment {u : List UInt8} {e : UInt8} : (∀ c ∈ u, ¬Ends sep c) → Ends sep e → (u ++ [e]).head? = some chHash →
    EntryText sep rest (u ++ [e])
  | name {k : List UInt8} {e : UInt8} : NameText sep k → Ends sep e → e ≠ chEquals → (e ≠ 0 → rest ≠ []) →
    (k ++ [e]).head? ≠ some chHash → EntryText sep rest (k ++ [e])
  | value {k t : List UInt8} : NameText sep k → sep ≠ chEquals → ValueText sep t → k.head? ≠ some chHash →
    EntryText sep rest (k ++ chEquals :: t)
  | equals {k : List UInt8} {d : UInt8} : NameText sep k → sep = chEquals → k.head? ≠ some chHash →
    EntryText sep rest (k ++ [chEquals, d])

/-- A complete entry and the blanks before it. -/
structure LineText (sep : UInt8) (rest b t : List UInt8) : Prop where
  blanks : ∀ c ∈ b, isblank c = true
  head : ∀ c, t.head? = some c → isblank c = false
  entry : EntryText sep rest t

/-- Complete entries up to the end, or to a NUL between two of them. -/
inductive ImportText (sep : UInt8) : List UInt8 → Prop where
  | last {b t rest : List UInt8} : LineText sep rest b t → rest = [] ∨ rest.head? = some 0 → ImportText sep (b ++ (t ++ rest))
  | more {b t rest : List UInt8} : LineText sep rest b t → ImportText sep rest → ImportText sep (b ++ (t ++ rest))

/-- Whatever the table, the callback and the selection are, the loop ends inside its data, after at most as many rounds as there are
bytes. -/
def ParsesInside (sep : UInt8) (flag : Nat) (env : List UInt8) : Prop :=
  ∀ (apply : Option ApplyFn) (doApply : Bool) (h : Htab) (vars : List CString), h.Valid →
    (importLoop apply sep flag doApply env.length env h (vars.map some)).isSome

namespace ImportInsideAux

open HashMapAux ImportAux WriteOnceAux

variable {sep : UInt8}
variable {c : UInt8} {dp r t rest env : List UInt8} {item : ImportItem} {h : Htab} {fuel flag : Nat} {vars : List (Option CString)}

/-! ## The character loops -/

theorem ends_of_not (h : ¬(c ≠ 0 ∧ c ≠ sep)) : Ends sep c := by
  unfold Ends
  tauto

theorem not_ends (h : c ≠ 0 ∧ c ≠ sep) : ¬Ends sep c := by
  unfold Ends
  tauto

theorem skipBlanks_iff :
    skipBlanks dp = some r ↔ ∃ b, dp = b ++ r ∧ (∀ c ∈ b, isblank c = true) ∧ r ≠ [] ∧ ∀ c, r.head? = some c → isblank c = false := by
  induction dp with
  | nil =>
    refine iff_of_false (by simp [skipBlanks]) ?_
    rintro ⟨b, hb, -, hr, -⟩
    exact hr (append_eq_nil_iff.1 hb.symm).2
  | cons c cs ih =>
    rw [skipBlanks]
    by_cases hc : isblank c = true
    · rw [if_pos hc, ih]
      constructor
      · rintro ⟨b, rfl, hb, hr⟩
        exact ⟨c :: b, rfl, forall_mem_cons.2 ⟨hc, hb⟩, hr⟩
      · rintro ⟨b, hb, hblank, hr, hhead⟩
        cases b with
        | nil =>
          obtain rfl : c :: cs = r := hb
          simp [hhead c rfl] at hc
        | cons d b =>
          obtain ⟨rfl, rfl⟩ := List.cons.inj hb
          exact ⟨b, rfl, (forall_mem_cons.1 hblank).2, hr, hhead⟩
    · rw [if_neg hc, Option.some.injEq]
      constructor
      · rintro rfl
        refine ⟨[], rfl, by simp, cons_ne_nil c cs, fun d hd => ?_⟩
        obtain rfl : c = d := by simpa using hd
        simpa using hc
      · rintro ⟨b, hb, hblank, -⟩
        cases b with
        | nil => exact hb
        | cons d b =>
          obtain ⟨rfl, -⟩ := List.cons.inj hb
          exact absurd (hblank _ mem_cons_self) hc

theorem skipComment_iff : skipComment sep dp = some r ↔ ∃ u e, dp = u ++ e :: r ∧ (∀ c ∈ u, ¬Ends sep c) ∧ Ends sep e := by
  induction dp with
  | nil => simp [skipComment]
  | cons c cs ih =>
    rw [skipComment]
    by_cases hc : c ≠ 0 ∧ c ≠ sep
    · rw [if_pos hc, ih]
      constructor
      · rintro ⟨u, e, rfl, hu, he⟩
        exact ⟨c :: u, e, rfl, forall_mem_cons.2 ⟨not_ends hc, hu⟩, he⟩
      · rintro ⟨u, e, hb, hu, he⟩
        cases u with
        | nil =>
          obtain ⟨rfl, -⟩ := List.cons.inj hb
          exact absurd he (not_ends hc)
        | cons d u =>
          obtain ⟨rfl, rfl⟩ := List.cons.inj hb
          exact ⟨u, e, rfl, (forall_mem_cons.1 hu).2, he⟩
    · rw [if_neg hc, Option.some.injEq]
      constructor
      · rintro rfl
        exact ⟨[], c, rfl, by simp, ends_of_not hc⟩
      · rintro ⟨u, e, hb, hu, -⟩
        cases u with
        | nil => exact (List.cons.inj hb).2
        | cons d u =>
          obtain ⟨rfl, -⟩ := List.cons.inj hb
          exact absurd (ends_of_not hc) (hu _ mem_cons_self)

theorem parseName_spec {r : List UInt8 × List UInt8} (h : parseName sep dp = some r) :
    dp = r.1 ++ r.2 ∧ NameText sep r.1 ∧ ∃ c cs, r.2 = c :: cs ∧ (c = chEquals ∨ c = 0 ∨ c = sep) := by
  induction dp generalizing r with
  | nil => simp [parseName] at h
  | cons c cs ih =>
    rw [parseName] at h
    split at h <;> rename_i hc
    · obtain ⟨r', hr', rfl⟩ := Option.map_eq_some_iff.1 h
      obtain ⟨rfl, hk, hend⟩ := ih hr'
      exact ⟨rfl, forall_mem_cons.2 ⟨hc, hk⟩, hend⟩
    · obtain rfl := Option.some.inj h
      exact ⟨rfl, by simp [NameText], c, cs, rfl, by tauto⟩

theorem parseValue_beforeNul (hs : chBackslash ≠ sep) (r : List UInt8) : parseValue sep (chBackslash :: 0 :: r) = some ([chBackslash], r) := by
  have hb : chBackslash ≠ 0 ∧ chBackslash ≠ sep := ⟨by decide, hs⟩
  rw [parseValue.eq_def]
  simp [hb, parseValue_stop]

/-- A value is read up to the byte that ends it. -/
theorem valueText_of_parseValue {v : List UInt8} (h : parseValue sep dp = some (v, r)) : ∃ t, dp = t ++ r ∧ ValueText sep t := by
  induction dp using parseValue.induct sep generalizing v with
  | case1 => simp [parseValue] at h
  | case2 hb => simp [parseValue, hb] at h
  | case3 c cs hc hb ih =>
    rw [parseValue_escape hb.2 hc] at h
    obtain ⟨⟨v', r'⟩, hv, he⟩ := Option.map_eq_some_iff.1 h
    obtain ⟨-, rfl⟩ := Prod.mk.inj he
    obtain ⟨t, rfl, ht⟩ := ih hv
    exact ⟨chBackslash :: c :: t, rfl, ValueText.escape hb.2 hc ht⟩
  | case4 c cs hc hb ih =>
    obtain rfl := not_not.1 hc
    rw [parseValue_beforeNul hb.2] at h
    obtain ⟨-, rfl⟩ := Prod.mk.inj (Option.some.inj h)
    exact ⟨[chBackslash, 0], rfl, ValueText.beforeNul hb.2⟩
  | case5 c cs hc hb ih =>
    rw [parseValue_plain hc hb] at h
    obtain ⟨⟨v', r'⟩, hv, he⟩ := Option.map_eq_some_iff.1 h
    obtain ⟨-, rfl⟩ := Prod.mk.inj he
    obtain ⟨t, rfl, ht⟩ := ih hv
    exact ⟨c :: t, rfl, ValueText.plain (not_ends hc) hb ht⟩
  | case6 c cs hc =>
    rw [parseValue_stop (ends_of_not hc)] at h
    obtain ⟨-, rfl⟩ := Prod.mk.inj (Option.some.inj h)
    exact ⟨[c], rfl, ValueText.ended (ends_of_not hc)⟩

theorem parseValue_of_valueText (ht : ValueText sep t) (r : List UInt8) : ∃ v, parseValue sep (t ++ r) = some (v, r) := by
  induction ht with
  | ended he => exact ⟨[], parseValue_stop he r⟩
  | @plain c t hc hb _ ih =>
    obtain ⟨v, hv⟩ := ih
    refine ⟨c :: v, ?_⟩
    rw [cons_append, parseValue_plain (by unfold Ends at hc; tauto) hb, hv]
    rfl
  | @escape d t hs hd _ ih =>
    obtain ⟨v, hv⟩ := ih
    refine ⟨d :: v, ?_⟩
    rw [cons_append, cons_append, parseValue_escape hs hd, hv]
    rfl
  | beforeNul hs => exact ⟨[chBackslash], parseValue_beforeNul hs r⟩

/-! ## One entry -/

theorem entryText_of_readNamed {k : List UInt8} (hk : NameText sep k) {cs : List UInt8}
    (hend : c = chEquals ∨ c = 0 ∨ c = sep) (hhash : (k ++ c :: cs).head? ≠ some chHash)
    (h : readNamed sep k (c :: cs) = some (item, rest)) : ∃ t, k ++ c :: cs = t ++ rest ∧ EntryText sep rest t := by
  have hkhash : k.head? ≠ some chHash := fun he => hhash (by rw [head?_append, he]; rfl)
  have hchash : (k ++ [c]).head? ≠ some chHash := by simpa [head?_append] using hhash
  by_cases h0 : c = 0
  · subst h0
    rw [readNamed_nul] at h
    obtain ⟨-, rfl⟩ := Prod.mk.inj (Option.some.inj h)
    exact ⟨k ++ [0], by simp, EntryText.name hk (Or.inl rfl) (by decide) (fun h0 => absurd rfl h0) hchash⟩
  cases cs with
  | nil => simp [readNamed, isDeleteEntry, h0] at h
  | cons d cs =>
    by_cases hc : c = chEquals
    · subst hc
      by_cases hdel : sep = chEquals ∨ Ends sep d
      · rw [readNamed_equals k cs hdel] at h
        obtain ⟨-, rfl⟩ := Prod.mk.inj (Option.some.inj h)
        refine ⟨k ++ [chEquals, d], by simp, ?_⟩
        by_cases hs : sep = chEquals
        · exact EntryText.equals hk hs hkhash
        · exact EntryText.value hk hs (ValueText.ended (hdel.resolve_left hs)) hkhash
      · rw [readNamed_value k cs (fun hs => hdel (Or.inl hs)) (fun hd => hdel (Or.inr hd))] at h
        obtain ⟨⟨v, r⟩, hv, he⟩ := Option.map_eq_some_iff.1 h
        obtain ⟨-, rfl⟩ := Prod.mk.inj he
        obtain ⟨t, ht, hvt⟩ := valueText_of_parseValue hv
        exact ⟨k ++ chEquals :: t, by rw [ht]; simp, EntryText.value hk (fun hs => hdel (Or.inl hs)) hvt hkhash⟩
    · have hc' : c = sep := (hend.resolve_left hc).resolve_left h0
      rw [readNamed_sep k cs h0 hc hc'] at h
      obtain ⟨-, rfl⟩ := Prod.mk.inj (Option.some.inj h)
      exact ⟨k ++ [c], by simp, EntryText.name hk (Or.inr hc') hc (fun _ => cons_ne_nil d cs) hchash⟩

theorem entryText_of_readEntry (h : readEntry sep dp = some (item, rest)) :
    ∃ t, dp = t ++ rest ∧ EntryText sep rest t := by
  unfold readEntry at h
  by_cases hhash : dp.head? = some chHash
  · rw [if_pos hhash] at h
    obtain ⟨r, hr, he⟩ := Option.map_eq_some_iff.1 h
    obtain ⟨-, rfl⟩ := Prod.mk.inj he
    obtain ⟨u, e, rfl, hu, hend⟩ := skipComment_iff.1 hr
    exact ⟨u ++ [e], by simp, EntryText.comment hu hend (by simpa [head?_append] using hhash)⟩
  · rw [if_neg hhash] at h
    obtain ⟨⟨k, r⟩, hname, hread⟩ := Option.bind_eq_some_iff.1 h
    obtain ⟨rfl, hk, c, cs, rfl, hend⟩ := parseName_spec hname
    exact entryText_of_readNamed hk hend hhash hread

theorem readEntry_of_entryText (h : EntryText sep rest t) : ∃ item, readEntry sep (t ++ rest) = some (item, rest) := by
  have equals {k : List UInt8} (hkhash : k.head? ≠ some chHash) : (k ++ [chEquals]).head? ≠ some chHash := by
    rw [head?_append]
    cases hh : k.head? with
    | none => decide
    | some x => simpa [hh] using hkhash
  cases h with
  | @comment u e hu hend hhash =>
    have hhash' : (u ++ e :: rest).head? = some chHash := by simpa [head?_append] using hhash
    rw [append_assoc, singleton_append]
    exact ⟨.comment, by rw [readEntry, if_pos hhash', skipComment_iff.2 ⟨u, e, rfl, hu, hend⟩]; rfl⟩
  | @name k e hk hend hne hmore hhash =>
    rw [append_assoc, singleton_append, readEntry_named hk rest (Or.inr hend) hhash]
    by_cases h0 : e = 0
    · exact ⟨_, by rw [h0, readNamed_nul]⟩
    · obtain ⟨d, cs, rfl⟩ := exists_cons_of_ne_nil (hmore h0)
      exact ⟨_, readNamed_sep k cs h0 hne (hend.resolve_left h0)⟩
  | @value k t hk hs ht hkhash =>
    rw [append_assoc, cons_append, readEntry_named hk (t ++ rest) (Or.inl rfl) (equals hkhash)]
    cases t with
    | nil => cases ht
    | cons d t =>
      by_cases hd : Ends sep d
      · -- the value is empty
        have hnil : t = [] := by
          cases ht with
          | ended _ => rfl
          | plain hc _ _ => exact absurd hd hc
          | escape hs' _ _ => exact absurd hd (by unfold Ends; push Not; exact ⟨by decide, hs'⟩)
          | beforeNul hs' => exact absurd hd (by unfold Ends; push Not; exact ⟨by decide, hs'⟩)
        subst hnil
        exact ⟨_, readNamed_equals k rest (Or.inr hd)⟩
      · obtain ⟨v, hv⟩ := parseValue_of_valueText ht rest
        rw [cons_append] at hv ⊢
        exact ⟨_, by rw [readNamed_value k _ hs hd, hv]; rfl⟩
  | @equals k d hk hs hkhash =>
    rw [append_assoc, cons_append, singleton_append, readEntry_named hk (d :: rest) (Or.inl rfl) (equals hkhash)]
    exact ⟨_, readNamed_equals k rest (Or.inl hs)⟩

theorem EntryText.ne_nil (h : EntryText sep rest t) : t ≠ [] := by
  cases h <;> simp

/-- A round reads a complete entry and its blanks. -/
theorem parseItem_iff : (∃ item, parseItem sep dp = some (item, rest)) ↔ ∃ b t, dp = b ++ (t ++ rest) ∧ LineText sep rest b t := by
  constructor
  · rintro ⟨item, h⟩
    rw [parseItem_eq] at h
    obtain ⟨r, hskip, hread⟩ := Option.bind_eq_some_iff.1 h
    obtain ⟨b, rfl, hb, -, hhead⟩ := skipBlanks_iff.1 hskip
    obtain ⟨t, rfl, ht⟩ := entryText_of_readEntry hread
    exact ⟨b, t, rfl, hb, fun c hc => hhead c (by rw [head?_append, hc]; rfl), ht⟩
  · rintro ⟨b, t, rfl, hb, hhead, ht⟩
    obtain ⟨item, hread⟩ := readEntry_of_entryText ht
    have hne := EntryText.ne_nil ht
    have hskip : skipBlanks (b ++ (t ++ rest)) = some (t ++ rest) := by
      refine skipBlanks_iff.2 ⟨b, rfl, hb, fun h => hne (append_eq_nil_iff.1 h).1, fun c hc => hhead c ?_⟩
      obtain ⟨x, t, rfl⟩ := exists_cons_of_ne_nil hne
      exact hc
    exact ⟨item, by rw [parseItem_eq, hskip]; exact hread⟩

/-! ## The loop -/

theorem itemStep_defined (hw : h.Valid) (apply : Option ApplyFn) (flag : Nat) (doApply : Bool) (item : ImportItem)
    (vars : List (Option CString)) : ∃ r, itemStep apply flag doApply item h vars = some r := by
  have hash (op : HashOp) : ∃ s, hashStep ⟨h, fun _ => none⟩ op = some s := by
    obtain ⟨s, hs, -⟩ := hashStep_valid (s := ⟨h, fun _ => none⟩) hw op
    exact ⟨s, hs⟩
  cases item with
  | comment => exact ⟨_, rfl⟩
  | delete name =>
    obtain ⟨s, hs⟩ := hash (.delete name)
    obtain ⟨r, hr, -⟩ := Option.map_eq_some_iff.1 hs
    by_cases hsel : (dropVarFromSet name vars).1 = true
    · exact ⟨_, by rw [itemStep, if_pos hsel, hr]; rfl⟩
    · exact ⟨_, by rw [itemStep, if_neg hsel]⟩
  | enter name value =>
    obtain ⟨s, hs⟩ := hash (.enter name value)
    obtain ⟨r, hr, -⟩ := Option.map_eq_some_iff.1 hs
    by_cases hsel : (dropVarFromSet name vars).1 = true
    · by_cases hden : importDenied apply flag doApply name value h = true
      · exact ⟨_, by rw [itemStep, if_pos hsel, if_pos hden]⟩
      · exact ⟨_, by rw [itemStep, if_pos hsel, if_neg hden, hr]; rfl⟩
    · exact ⟨_, by rw [itemStep, if_neg hsel]⟩

/-- Over complete entries the loop comes to an end. -/
theorem importLoop_of_importText (ht : ImportText sep env) (apply : Option ApplyFn) (flag : Nat) (doApply : Bool) (hw : h.Valid) (vars : List (Option CString)) (hfuel : env.length ≤ fuel) :
    (importLoop apply sep flag doApply fuel env h vars).isSome := by
  -- a round on the first entry, and the rest of the loop
  have round {b t rest : List UInt8} (hline : LineText sep rest b t) {h : Htab} (hw : h.Valid) (vars : List (Option CString))
      {fuel : Nat} (hfuel : (b ++ (t ++ rest)).length ≤ fuel) (hrest : rest = [] ∨ rest.head? = some 0 ∨
        ∀ h' vars' fuel', h'.Valid → rest.length ≤ fuel' → (importLoop apply sep flag doApply fuel' rest h' vars').isSome) :
      (importLoop apply sep flag doApply fuel (b ++ (t ++ rest)) h vars).isSome := by
    have hpos : 0 < t.length := length_pos_iff.2 (EntryText.ne_nil hline.entry)
    obtain ⟨item, hitem⟩ := parseItem_iff.2 ⟨b, t, rfl, hline⟩
    rw [length_append, length_append] at hfuel
    obtain ⟨fuel, rfl⟩ : ∃ n, fuel = n + 1 := ⟨fuel - 1, by omega⟩
    obtain ⟨⟨ok, h', vars'⟩, hstep⟩ := itemStep_defined hw apply flag doApply item vars
    rw [importLoop_succ, hitem, Option.bind_some, hstep, Option.bind_some]
    cases ok with
    | false => rfl
    | true =>
      rw [if_pos rfl]
      by_cases hend : rest = [] ∨ rest.head? = some 0
      · rw [if_pos hend]
        rfl
      · rw [if_neg hend]
        rw [← or_assoc] at hrest
        exact hrest.resolve_left hend _ _ _ (itemStep_valid hw hstep) (by omega)
  induction ht generalizing h vars fuel with
  | last hline hend => exact round hline hw vars hfuel (hend.imp_right Or.inl)
  | more hline _ ih => exact round hline hw vars hfuel (Or.inr (Or.inr fun h' vars' fuel' hw' hf => ih hw' vars' hf))

/-- A callback that denies everything. -/
def denyAll : ApplyFn := fun _ _ _ _ => true

theorem itemStep_denied {h' : Htab} {vars' : List (Option CString)} {ok : Bool}
    (hs : itemStep (some denyAll) flag true item h vars = some (ok, h', vars')) : ok = true := by
  cases item with
  | comment => exact (Prod.mk.inj (Option.some.inj hs)).1.symm
  | delete name =>
    rw [itemStep] at hs
    split at hs
    · obtain ⟨q, -, hq⟩ := Option.map_eq_some_iff.1 hs
      exact (Prod.mk.inj hq).1.symm
    · exact (Prod.mk.inj (Option.some.inj hs)).1.symm
  | enter name value =>
    have hden : importDenied (some denyAll) flag true name value h = true := rfl
    rw [itemStep, if_pos hden] at hs
    split at hs <;> exact (Prod.mk.inj (Option.some.inj hs)).1.symm

/-- Where nothing is entered, a loop that comes to an end has read complete entries. -/
theorem importText_of_importLoop (hloop : (importLoop (some denyAll) sep flag true fuel env h vars).isSome) : ImportText sep env := by
  induction fuel generalizing env h vars with
  | zero => simp [importLoop] at hloop
  | succ fuel ih =>
    rw [importLoop_succ] at hloop
    obtain ⟨r, hr⟩ := Option.isSome_iff_exists.1 hloop
    obtain ⟨⟨item, rest⟩, hp, hr⟩ := Option.bind_eq_some_iff.1 hr
    obtain ⟨⟨ok, h', vars'⟩, hs, hr⟩ := Option.bind_eq_some_iff.1 hr
    obtain ⟨b, t, rfl, hline⟩ := parseItem_iff.1 ⟨item, hp⟩
    by_cases hend : rest = [] ∨ rest.head? = some 0
    · exact ImportText.last hline hend
    · refine ImportText.more hline ?_
      obtain rfl : ok = true := itemStep_denied hs
      dsimp only at hr
      rw [if_pos rfl, if_neg hend] at hr
      exact ih (by rw [hr]; rfl)

end ImportInsideAux

open ImportInsideAux

/-- The loop stays in its data exactly when all entries up to the end, or up to a NUL between two entries, are complete. -/
theorem himport_inside_iff (sep : UInt8) (flag : Nat) (env : List UInt8) : ParsesInside sep flag env ↔ ImportText sep env := by
  constructor
  · intro hp
    exact importText_of_importLoop (hp (some denyAll) true fiveSlots [] (HashMapAux.wf_fresh (by decide) (by decide)).toValid)
  · intro ht apply doApply h vars hw
    exact importLoop_of_importText ht apply flag doApply hw (vars.map some) le_rfl

/-- The text `a=b` without a byte behind it: the loop reads past its end. So it does in a comment, in a name, behind a name that the
last separator ends, and behind a backslash. -/
theorem himport_inside_false : importLoop none chNewline 0 false 3 [0x61, chEquals, 0x62] fiveSlots [] = none ∧
    ¬ParsesInside chNewline 0 [0x61, chEquals, 0x62] ∧
    ∀ env ∈ [[chHash, 0x61], [0x61], [0x61, chNewline], [0x61, chEquals, 0x62, chBackslash]],
      importLoop none chNewline 0 false env.length env fiveSlots [] = none := by
  have hnone : importLoop none chNewline 0 false 3 [0x61, chEquals, 0x62] fiveSlots [] = none := rfl
  refine ⟨hnone, ?_, ?_⟩
  · intro hp
    have h : (importLoop none chNewline 0 false 3 [0x61, chEquals, 0x62] fiveSlots []).isSome :=
      hp none false fiveSlots [] (HashMapAux.wf_fresh (by decide) (by decide)).toValid
    rw [hnone] at h
    cases h
  · simp only [forall_mem_cons, not_mem_nil, false_implies, implies_true, and_true]
    exact ⟨rfl, rfl, rfl, rfl⟩

end UBoot

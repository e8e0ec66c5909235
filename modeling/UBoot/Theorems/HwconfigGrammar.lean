import UBoot.Theorems.HwconfigSearch

/-!
# The queries of hwconfig against its grammar

A string for hwconfig is a list of items, and an argument a list of sub-options.
-/

namespace UBoot

/-! ## The grammar -/

/-- A key, the name of a sub-option or the value of one. -/
structure HwWord where
  chars : List UInt8
  plain : ∀ c ∈ chars, c ∉ [0, chSemicolon, chColon, chComma, chEquals]
  deriving DecidableEq

/-- A name, and what stands behind it. -/
structure HwEntry (β : Type) where
  name : HwWord
  val : Option β

/-- `sub` or `sub=val` -/
abbrev HwSub := HwEntry HwWord
/-- `key` or `key:arg` -/
abbrev HwItem := HwEntry (List HwSub)

/-- The characters of an entry. -/
def entryText {β : Type} (txt : β → List UInt8) (eq : UInt8) (e : HwEntry β) : List UInt8 :=
  e.name.chars ++ e.val.elim [] fun v => eq :: txt v

/-- The characters of entries. -/
def entriesText {β : Type} (txt : β → List UInt8) (sep eq : UInt8) : List (HwEntry β) → List UInt8
  | [] => []
  | [e] => entryText txt eq e
  | e :: e' :: es => entryText txt eq e ++ sep :: entriesText txt sep eq (e' :: es)

/-- An argument. -/
def subsText (subs : List HwSub) : List UInt8 := entriesText HwWord.chars chComma chEquals subs
/-- A string for hwconfig. -/
def hwText (items : List HwItem) : List UInt8 := entriesText subsText chSemicolon chColon items

/-- What stands behind the first entry with a name, and where, for entries from an offset on. -/
def firstVal {β : Type} (txt : β → List UInt8) (eq : UInt8) (name : HwWord) : List (HwEntry β) → Nat → Option (Nat × β)
  | [], _ => none
  | e :: es, o =>
    if e.name = name then e.val.map fun v => (o + e.name.chars.length + 1, v)
    else firstVal txt eq name es (o + (entryText txt eq e).length + 1)

/-- The string that a query uses. -/
def hwSource (e : HwEnv) (buf : Option (List UInt8)) : Option (List UInt8) := buf.or (if e.ready then e.hwconfig else none)

/-- The four queries answer by the grammar. -/
structure HwconfigRight (items : List HwItem) (key subkey : HwWord) (e : HwEnv) (buf : Option (List UInt8)) : Prop where
  found : hwconfigF key.chars e buf = some (items.any fun it => it.name = key)
  arg : hwconfigArgF key.chars e buf = some ((firstVal subsText chColon key items 0).map fun r => ⟨hwText items, r.1, (subsText r.2).length⟩)
  sub : hwconfigSubF key.chars subkey.chars e buf = some ((firstVal subsText chColon key items 0).any fun r => r.2.any fun s => s.name = subkey)
  subarg : hwconfigSubargF key.chars subkey.chars e buf = some ((firstVal subsText chColon key items 0).bind fun r =>
      (firstVal HwWord.chars chEquals subkey r.2 r.1).map fun r => ⟨hwText items, r.1, r.2.chars.length⟩)

section

variable {β : Type} (txt : β → List UInt8) (name : HwWord)

/-- An entry that is taken for one with the name when the search comes to it behind a false hit. -/
def Fakes (e : HwEntry β) : Prop := Stutters name.chars e.name.chars ∨ ∃ v ∈ e.val, Stutters name.chars (txt v)

/-- The first entry with the name has something behind it. -/
def HasVal (es : List (HwEntry β)) : Prop := ∃ e, es.find? (fun e => e.name = name) = some e ∧ e.val.isSome = true

/-- An entry before the first one with the name is taken for it, and what stands behind it is something else. -/
def Misleads : List (HwEntry β) → Prop
  | [] => False
  | e :: es => e.name ≠ name ∧
    ((Stutters name.chars e.name.chars ∧ (e.val.isSome = true ∨ HasVal name es)) ∨
      (¬Stutters name.chars e.name.chars ∧ Fakes txt name e ∧ HasVal name es) ∨ (¬Fakes txt name e ∧ Misleads es))

/-- Among entries the search finds the name, and the first entry with it. -/
def Clear (es : List (HwEntry β)) : Prop := ((∃ e ∈ es, e.name = name) ∨ ∀ e ∈ es, ¬Fakes txt name e) ∧ ¬Misleads txt name es

end

/-- The items are clear for the key, and so is the argument of the first one for the sub-option. -/
def HwconfigClear (items : List HwItem) (key subkey : HwWord) : Prop :=
  Clear subsText key items ∧ ∀ it, items.find? (fun it => it.name = key) = some it → ∀ subs ∈ it.val, Clear HwWord.chars subkey subs

namespace HwconfigAux

/-! ### Entries -/

section

variable {β : Type} {txt : β → List UInt8} {name : HwWord} {sep eqch : UInt8} {stopchs : List UInt8} {e : HwEntry β} {es : List (HwEntry β)}
variable {r : Nat × β}

/-- What stands behind a name. -/
def valText (txt : β → List UInt8) (eqch : UInt8) (e : HwEntry β) : List UInt8 := e.val.elim [] fun v => eqch :: txt v

/-- What stands behind an entry. -/
def moreText (txt : β → List UInt8) (sep eqch : UInt8) (es : List (HwEntry β)) : List UInt8 :=
  if es.isEmpty then [] else sep :: entriesText txt sep eqch es

theorem entriesText_cons (e : HwEntry β) (es : List (HwEntry β)) :
    entriesText txt sep eqch (e :: es) = e.name.chars ++ (valText txt eqch e ++ moreText txt sep eqch es) := by
  cases es with
  | nil => simp [entriesText, entryText, valText, moreText]
  | cons e' es => simp [entriesText, entryText, valText, moreText]

theorem length_entryText (e : HwEntry β) : (entryText txt eqch e).length = e.name.chars.length + (valText txt eqch e).length :=
  List.length_append

/-- The stop characters and the character behind a name are none that a word has, and the texts behind names have none of them. -/
structure Delimited (txt : β → List UInt8) (sep eqch : UInt8) (stopchs : List UInt8) (es : List (HwEntry β)) : Prop where
  sep_mem : sep ∈ stopchs
  eqch_notMem : eqch ∉ stopchs
  stop_delim : ∀ c ∈ stopchs, c ∈ [0, chSemicolon, chColon, chComma, chEquals]
  eqch_delim : eqch ∈ [0, chSemicolon, chColon, chComma, chEquals]
  val_free : ∀ e ∈ es, ∀ v ∈ e.val, ∀ c ∈ txt v, c ∉ stopchs ∧ c ≠ eqch

theorem Delimited.tail (h : Delimited txt sep eqch stopchs (e :: es)) : Delimited txt sep eqch stopchs es :=
  ⟨h.sep_mem, h.eqch_notMem, h.stop_delim, h.eqch_delim, fun e' he' => h.val_free e' (List.mem_cons_of_mem _ he')⟩

theorem Delimited.word_free (h : Delimited txt sep eqch stopchs es) (w : HwWord) : ∀ c ∈ w.chars, c ∉ stopchs ∧ c ≠ eqch :=
  fun c hc => ⟨fun hmem => w.plain c hc (h.stop_delim c hmem), fun heq => w.plain c hc (heq ▸ h.eqch_delim)⟩

theorem Delimited.more_head (h : Delimited txt sep eqch stopchs es) (w : HwWord) (es' : List (HwEntry β)) :
    ∀ c ∈ (moreText txt sep eqch es').head?, c ∉ w.chars ∧ c ∈ stopchs := by
  intro c hc
  unfold moreText at hc
  split at hc
  · cases hc
  · cases hc
    exact ⟨fun hmem => (h.word_free w _ hmem).1 h.sep_mem, h.sep_mem⟩

theorem scan_entry (hname : name.chars ≠ []) (h : Delimited txt sep eqch stopchs (e :: es)) :
    ((e.name = name ∨ Stutters name.chars e.name.chars) ∧
      scan name.chars stopchs eqch true (entriesText txt sep eqch (e :: es)) = some (valText txt eqch e ++ moreText txt sep eqch es)) ∨
    (e.name ≠ name ∧ ¬Stutters name.chars e.name.chars ∧ Fakes txt name e ∧
      scan name.chars stopchs eqch true (entriesText txt sep eqch (e :: es)) = some (moreText txt sep eqch es)) ∨
    (e.name ≠ name ∧ ¬Fakes txt name e ∧ scan name.chars stopchs eqch true (entriesText txt sep eqch (e :: es)) =
      scan name.chars stopchs eqch true (entriesText txt sep eqch es)) := by
  have heqch : eqch ∉ name.chars := fun hmem => (h.word_free name _ hmem).2 rfl
  have hmore := h.more_head name es
  have hB : ∀ c ∈ (valText txt eqch e ++ moreText txt sep eqch es).head?, c ∉ name.chars ∧ (c ∈ stopchs ∨ c = eqch) := by
    intro c hc
    unfold valText at hc
    cases hval : e.val with
    | none =>
      rw [hval] at hc
      exact ⟨(hmore c hc).1, Or.inl (hmore c hc).2⟩
    | some v =>
      rw [hval] at hc
      cases hc
      exact ⟨heqch, Or.inr rfl⟩
  have hback : scan name.chars stopchs eqch true (moreText txt sep eqch es) =
      scan name.chars stopchs eqch true (entriesText txt sep eqch es) := by
    cases es with
    | nil => rfl
    | cons e' es =>
      have hsep : sep ∉ name.chars := fun hmem => (h.word_free name _ hmem).1 h.sep_mem
      rw [moreText, if_neg (by simp), scan_delimiter hname hsep, decide_eq_true h.sep_mem]
  have hne : ∀ {w : HwWord}, w.chars = name.chars ↔ w = name := by
    intro w
    constructor
    · intro hw
      cases w
      cases name
      simpa using hw
    · rintro rfl
      rfl
  rw [entriesText_cons]
  rcases scan_block hname hB e.name.chars (h.word_free e.name) true with ⟨hhit, hscan⟩ | ⟨hmiss, hscan⟩
  · exact Or.inl ⟨hhit.imp_left fun h => hne.1 h.2, hscan⟩
  · have hname' : e.name ≠ name := fun heq => hmiss (Or.inl ⟨rfl, hne.2 heq⟩)
    have hstut : ¬Stutters name.chars e.name.chars := fun hs => hmiss (Or.inr hs)
    refine Or.inr ?_
    cases hval : e.val with
    | none =>
      refine Or.inr ⟨hname', ?_, ?_⟩
      · rintro (hs | ⟨v, hv, -⟩)
        · exact hstut hs
        · rw [hval] at hv
          cases hv
      · rw [hscan, valText, hval, Option.elim_none, List.nil_append, hback]
    | some v =>
      rw [hscan, valText, hval, Option.elim_some, List.cons_append, scan_delimiter hname heqch, decide_eq_false h.eqch_notMem]
      have hBmore : ∀ c ∈ (moreText txt sep eqch es).head?, c ∉ name.chars ∧ (c ∈ stopchs ∨ c = eqch) :=
        fun c hc => ⟨(hmore c hc).1, Or.inl (hmore c hc).2⟩
      rcases scan_block hname hBmore (txt v) (h.val_free e (List.mem_cons_self ..) v hval) false with ⟨hhit, hscan⟩ | ⟨hmiss, hscan⟩
      · exact Or.inl ⟨hname', hstut, Or.inr ⟨v, hval, hhit.resolve_left fun h => Bool.false_ne_true h.1⟩, hscan⟩
      · refine Or.inr ⟨hname', ?_, by rw [hscan, hback]⟩
        rintro (hs | ⟨v', hv', hs⟩)
        · exact hstut hs
        · rw [hval] at hv'
          cases hv'
          exact hmiss (Or.inr hs)

theorem scan_isSome_iff (hname : name.chars ≠ []) (h : Delimited txt sep eqch stopchs es) :
    (scan name.chars stopchs eqch true (entriesText txt sep eqch es)).isSome ↔ ∃ e ∈ es, e.name = name ∨ Fakes txt name e := by
  induction es with
  | nil => simp [entriesText, scan]
  | cons e es ih =>
    simp only [List.mem_cons, or_and_right, exists_or, exists_eq_left]
    rcases scan_entry hname h with ⟨hhit, hscan⟩ | ⟨-, -, hfakes, hscan⟩ | ⟨hne, hno, hscan⟩
    · rw [hscan]
      exact iff_of_true rfl (Or.inl (hhit.imp_right Or.inl))
    · rw [hscan]
      exact iff_of_true rfl (Or.inl (Or.inr hfakes))
    · rw [hscan, ih h.tail]
      exact (or_iff_right fun h => h.elim hne hno).symm

theorem firstVal_isSome_iff (txt : β → List UInt8) (eqch : UInt8) (name : HwWord) (es : List (HwEntry β)) (o : Nat) :
    (firstVal txt eqch name es o).isSome ↔ HasVal name es := by
  induction es generalizing o with
  | nil => simp [firstVal, HasVal]
  | cons e es ih =>
    rw [firstVal, HasVal, List.find?_cons]
    by_cases hname : e.name = name
    · rw [if_pos hname, decide_eq_true hname, Option.isSome_map]
      exact ⟨fun h => ⟨e, rfl, h⟩, fun ⟨_, heq, h⟩ => Option.some.inj heq ▸ h⟩
    · rw [if_neg hname, decide_eq_false hname, ih]
      exact Iff.rfl

theorem le_of_firstVal {o : Nat} (h : firstVal txt eqch name es o = some r) : o ≤ r.1 := by
  induction es generalizing o with
  | nil => cases h
  | cons e es ih =>
    rw [firstVal] at h
    split at h
    · obtain ⟨v, -, rfl⟩ := Option.map_eq_some_iff.1 h
      dsimp only
      omega
    · have := ih h
      omega

/-- What stands behind a name is found with its length. -/
theorem hitArg_val (h : Delimited txt sep eqch stopchs (e :: es)) (P opt : List UInt8) :
    hitArg opt stopchs eqch (P ++ entriesText txt sep eqch (e :: es)) true (valText txt eqch e ++ moreText txt sep eqch es) =
      e.val.map fun v => (P.length + e.name.chars.length + 1, (txt v).length) := by
  have hmore := h.more_head ⟨[], by simp⟩ es
  rw [hitArg, if_neg (by decide), entriesText_cons]
  cases hval : e.val with
  | none =>
    rw [valText, hval, Option.elim_none, List.nil_append, if_neg]
    · rfl
    · intro heq
      exact h.eqch_notMem (hmore eqch heq).2
  | some v =>
    have hfree := h.val_free e (List.mem_cons_self ..) v hval
    have htake : (valText txt eqch e ++ moreText txt sep eqch es).takeWhile (· ∉ stopchs) = eqch :: txt v := by
      rw [valText, hval, Option.elim_some, List.takeWhile_append_of_pos]
      · have hnil : (moreText txt sep eqch es).takeWhile (· ∉ stopchs) = [] := by
          cases hm : moreText txt sep eqch es with
          | nil => rfl
          | cons c cs => rw [List.takeWhile_cons_of_neg (by simpa using (hmore c (by rw [hm]; rfl)).2)]
        rw [hnil, List.append_nil]
      · intro c hc
        rcases List.mem_cons.1 hc with rfl | hc
        · simpa using h.eqch_notMem
        · simpa using (hfree c hc).1
    rw [htake, if_pos (by rw [valText, hval]; rfl), Option.map_some, valText, hval]
    simp only [Option.elim_some, List.length_append, List.length_cons]
    congr 2
    omega

theorem hitArg_more (h : Delimited txt sep eqch stopchs es) (opt T : List UInt8) :
    hitArg opt stopchs eqch T true (moreText txt sep eqch es) = none := by
  rw [hitArg, if_neg (by decide), if_neg]
  intro heq
  exact h.eqch_notMem (h.more_head ⟨[], by simp⟩ es eqch heq).2

/-- The search answers with the first entry just if none before it misleads it. -/
theorem scan_hitArg_iff (hname : name.chars ≠ []) (h : Delimited txt sep eqch stopchs es) (P : List UInt8) :
    (scan name.chars stopchs eqch true (entriesText txt sep eqch es)).bind
        (hitArg name.chars stopchs eqch (P ++ entriesText txt sep eqch es) true) =
      (firstVal txt eqch name es P.length).map (fun r => (r.1, (txt r.2).length)) ↔ ¬Misleads txt name es := by
  induction es generalizing P with
  | nil => simp [entriesText, scan, firstVal, Misleads]
  | cons e es ih =>
    have hnone : ∀ o, none = (firstVal txt eqch name es o).map (fun r => (r.1, (txt r.2).length)) ↔ ¬HasVal name es := by
      intro o
      rw [← firstVal_isSome_iff txt eqch name es o]
      cases firstVal txt eqch name es o <;> simp
    rw [firstVal, Misleads]
    rcases scan_entry hname h with ⟨hhit, hscan⟩ | ⟨hne, hstut, hfakes, hscan⟩ | ⟨hne, hno, hscan⟩
    · rw [hscan, Option.bind_some, hitArg_val h]
      by_cases hn : e.name = name
      · rw [if_pos hn]
        refine iff_of_true ?_ fun hm => hm.1 hn
        cases e.val <;> rfl
      · have hst := hhit.resolve_left hn
        rw [if_neg hn]
        cases hval : e.val with
        | none =>
          have hmis : (e.name ≠ name ∧ ((Stutters name.chars e.name.chars ∧ ((none : Option β).isSome = true ∨ HasVal name es)) ∨
              (¬Stutters name.chars e.name.chars ∧ Fakes txt name e ∧ HasVal name es) ∨ (¬Fakes txt name e ∧ Misleads txt name es))) ↔
              HasVal name es := by
            have hfakes : Fakes txt name e := Or.inl hst
            simp [hn, hst, hfakes]
          rw [hmis]
          exact hnone _
        | some v =>
          refine iff_of_false ?_ fun hm => hm ⟨hn, Or.inl ⟨hst, Or.inl rfl⟩⟩
          intro heq
          obtain ⟨r, hr, heq⟩ := Option.map_eq_some_iff.1 heq.symm
          have hle := le_of_firstVal hr
          have hlen : (entryText txt eqch e).length = e.name.chars.length + (valText txt eqch e).length := length_entryText e
          have hvlen : (valText txt eqch e).length = (txt v).length + 1 := by
            rw [valText, hval]
            rfl
          rw [(Prod.mk.inj heq).1] at hle
          omega
    · rw [hscan, Option.bind_some, hitArg_more h.tail, if_neg hne, hnone]
      refine not_congr ?_
      constructor
      · exact fun hv => ⟨hne, Or.inr (Or.inl ⟨hstut, hfakes, hv⟩)⟩
      · rintro ⟨-, ⟨hs, -⟩ | ⟨-, -, hv⟩ | ⟨hno, -⟩⟩
        · exact absurd hs hstut
        · exact hv
        · exact absurd hfakes hno
    · have hmis : (e.name ≠ name ∧ ((Stutters name.chars e.name.chars ∧ (e.val.isSome = true ∨ HasVal name es)) ∨
          (¬Stutters name.chars e.name.chars ∧ Fakes txt name e ∧ HasVal name es) ∨ (¬Fakes txt name e ∧ Misleads txt name es))) ↔
          Misleads txt name es := by
        have hst : ¬Stutters name.chars e.name.chars := fun hs => hno (Or.inl hs)
        simp [hne, hst, hno]
      rw [hscan, if_neg hne, hmis, ← ih h.tail (P ++ e.name.chars ++ valText txt eqch e ++ [sep])]
      have hlen : (P ++ e.name.chars ++ valText txt eqch e ++ [sep]).length = P.length + (entryText txt eqch e).length + 1 := by
        rw [length_entryText]
        simp only [List.length_append, List.length_singleton]
        omega
      cases es with
      | nil => simp [entriesText, scan, firstVal]
      | cons e' es =>
        rw [hlen, entriesText_cons e, moreText, if_neg (by simp)]
        simp only [List.append_assoc, List.singleton_append]

theorem split_of_firstVal (sep : UInt8) (P : List UInt8) (h : firstVal txt eqch name es P.length = some r) :
    (∃ A B, P ++ entriesText txt sep eqch es = A ++ (txt r.2 ++ B) ∧ A.length = r.1 ∧ ∀ c ∈ B.head?, c = sep) ∧
      ∃ e, es.find? (fun e => e.name = name) = some e ∧ e.val = some r.2 := by
  induction es generalizing P with
  | nil => cases h
  | cons e es ih =>
    rw [firstVal] at h
    rw [List.find?_cons, entriesText_cons]
    by_cases hn : e.name = name
    · rw [if_pos hn] at h
      rw [decide_eq_true hn]
      obtain ⟨v, hv, rfl⟩ := Option.map_eq_some_iff.1 h
      refine ⟨⟨P ++ e.name.chars ++ [eqch], moreText txt sep eqch es, ?_, ?_, ?_⟩, e, rfl, hv⟩
      · rw [valText, hv]
        simp
      · simp only [List.length_append, List.length_singleton]
      · intro c hc
        unfold moreText at hc
        split at hc
        · cases hc
        · cases hc
          rfl
    · rw [if_neg hn] at h
      rw [decide_eq_false hn]
      have hlen : (P ++ e.name.chars ++ valText txt eqch e ++ [sep]).length = P.length + (entryText txt eqch e).length + 1 := by
        rw [length_entryText]
        simp only [List.length_append, List.length_singleton]
        omega
      rw [← hlen] at h
      obtain ⟨⟨A, B, htext, hA, hB⟩, hfind⟩ := ih _ h
      refine ⟨⟨A, B, ?_, hA, hB⟩, hfind⟩
      cases es with
      | nil => cases h
      | cons e' es =>
        rw [← htext, moreText, if_neg (by simp)]
        simp only [List.append_assoc, List.singleton_append]

theorem firstVal_add (o k : Nat) : firstVal txt eqch name es (o + k) = (firstVal txt eqch name es k).map fun r => (o + r.1, r.2) := by
  induction es generalizing k with
  | nil => rfl
  | cons e es ih =>
    rw [firstVal, firstVal]
    split
    · rw [Option.map_map]
      congr 1
      funext v
      simp only [Function.comp_apply, Nat.add_assoc]
    · rw [← ih]
      congr 1
      omega

theorem scan_found_iff (hname : name.chars ≠ []) (h : Delimited txt sep eqch stopchs es) :
    (scan name.chars stopchs eqch true (entriesText txt sep eqch es)).isSome = (es.any fun e => e.name = name) ↔
      (∃ e ∈ es, e.name = name) ∨ ∀ e ∈ es, ¬Fakes txt name e := by
  rw [Bool.eq_iff_iff, scan_isSome_iff hname h, List.any_eq_true]
  simp only [decide_eq_true_eq]
  constructor
  · intro hiff
    by_cases hex : ∃ e ∈ es, e.name = name
    · exact Or.inl hex
    · exact Or.inr fun e he hf => hex (hiff.1 ⟨e, he, Or.inr hf⟩)
  · rintro (⟨e, he, hn⟩ | hno)
    · exact iff_of_true ⟨e, he, Or.inl hn⟩ ⟨e, he, hn⟩
    · exact ⟨fun ⟨e, he, h⟩ => ⟨e, he, h.resolve_right (hno e he)⟩, fun ⟨e, he, h⟩ => ⟨e, he, Or.inl h⟩⟩

end

/-! ### The two levels -/

theorem subsText_free (subs : List HwSub) : ∀ c ∈ subsText subs, c ≠ chSemicolon ∧ c ≠ chColon := by
  have hword : ∀ (w : HwWord), ∀ c ∈ w.chars, c ≠ chSemicolon ∧ c ≠ chColon := fun w c hc =>
    ⟨fun h => w.plain c hc (by rw [h]; decide), fun h => w.plain c hc (by rw [h]; decide)⟩
  have hentry : ∀ (e : HwSub), ∀ c ∈ entryText HwWord.chars chEquals e, c ≠ chSemicolon ∧ c ≠ chColon := by
    intro e c hc
    rcases List.mem_append.1 hc with hc | hc
    · exact hword e.name c hc
    · cases hval : e.val with
      | none =>
        rw [hval] at hc
        cases hc
      | some v =>
        rw [hval] at hc
        rcases List.mem_cons.1 hc with rfl | hc
        · decide
        · exact hword v c hc
  induction subs with
  | nil => exact fun c hc => nomatch hc
  | cons e subs ih =>
    cases subs with
    | nil => exact hentry e
    | cons e' subs =>
      intro c hc
      rcases List.mem_append.1 hc with hc | hc
      · exact hentry e c hc
      · rcases List.mem_cons.1 hc with rfl | hc
        · decide
        · exact ih c hc

theorem delimited_items (items : List HwItem) : Delimited subsText chSemicolon chColon [chSemicolon] items where
  sep_mem := by decide
  eqch_notMem := by decide
  stop_delim := by decide
  eqch_delim := by decide
  val_free it _ subs _ c hc := ⟨by simpa using (subsText_free subs c hc).1, (subsText_free subs c hc).2⟩

theorem delimited_subs (subs : List HwSub) : Delimited HwWord.chars chComma chEquals [chComma, chSemicolon] subs where
  sep_mem := by decide
  eqch_notMem := by decide
  stop_delim := by decide
  eqch_delim := by decide
  val_free _ _ v _ c hc := ⟨fun h => v.plain c hc (by
    rcases List.mem_cons.1 h with rfl | h
    · decide
    · rw [List.mem_singleton.1 h]
      decide), fun h => v.plain c hc (by rw [h]; decide)⟩

variable {key subkey : HwWord} {items : List HwItem} {subs : List HwSub} {e : HwEnv} {buf : Option (List UInt8)}

theorem hwconfigIn_eq (hkey : key.chars ≠ []) (items : List HwItem) (arglen : Bool) : hwconfigIn (hwText items) key.chars arglen =
      some (((scan key.chars [chSemicolon] chColon true (hwText items)).bind
        (hitArg key.chars [chSemicolon] chColon (hwText items) arglen)).map fun r => ⟨hwText items, r.1, r.2⟩) := by
  have hd := delimited_items items
  have hnil : ∀ c ∈ ([] : List UInt8).head?, c ∈ [chSemicolon] := fun c hc => nomatch hc
  have h := hwconfigNext_eq hkey (fun c hc => (hd.word_free key c hc).1) hd.eqch_notMem (hwText items) hnil arglen
    ((hwText items).length + 1) 0 (Nat.zero_le _) (by omega)
  rw [List.append_nil, List.drop_zero] at h
  rw [hwconfigIn, hwconfigParse, h]
  rfl

theorem hwconfig_eq (hkey : key.chars ≠ []) (hsrc : hwSource e buf = some (hwText items)) (arglen : Bool) :
    hwconfig key.chars arglen e buf = hwconfigIn (hwText items) key.chars arglen := by
  have hnil : hwconfigIn [] key.chars arglen = some none := by
    refine (hwconfigIn_eq hkey [] arglen).trans ?_
    simp [hwText, entriesText, scan]
  have hor : ∀ r, orHwconfig r (some none) = r := by
    intro r
    unfold orHwconfig
    split <;> rfl
  have hstrings : hwconfigStrings key.chars arglen (some (hwText items)) = hwconfigIn (hwText items) key.chars arglen := by
    rw [hwconfigStrings, boardHwconfig, cpuHwconfig, hnil, hor, hor]
    rfl
  unfold hwconfig
  cases buf with
  | some buf =>
    obtain rfl : buf = hwText items := by simpa [hwSource] using hsrc
    exact hstrings
  | none =>
    rw [hwSource, Option.none_or] at hsrc
    split at hsrc
    next hready =>
      dsimp only
      rw [if_pos hready, hsrc, hstrings]
    · cases hsrc

theorem hwconfigSub_eq (hsub : subkey.chars ≠ []) {T A B : List UInt8} (hT : T = A ++ (subsText subs ++ B))
    (hB : ∀ c ∈ B.head?, c = chSemicolon) (arglen : Bool) :
    hwconfigSub subkey.chars arglen ⟨T, A.length, (subsText subs).length⟩ =
      some (((scan subkey.chars [chComma, chSemicolon] chEquals true (subsText subs)).bind
        (hitArg subkey.chars [chComma, chSemicolon] chEquals (subsText subs) arglen)).map fun r => ⟨T, A.length + r.1, r.2⟩) := by
  have hd := delimited_subs subs
  have hB' : ∀ c ∈ B.head?, c ∈ [chComma, chSemicolon] := fun c hc => by rw [hB c hc]; decide
  have hrounds : (subsText subs).length - 0 < (subsText subs ++ B).length + 1 := by
    rw [List.length_append]
    omega
  have h := hwconfigNext_eq hsub (fun c hc => (hd.word_free subkey c hc).1) hd.eqch_notMem (subsText subs) hB' arglen
    ((subsText subs ++ B).length + 1) 0 (Nat.zero_le _) hrounds
  rw [List.drop_zero] at h
  rw [hwconfigSub, hT, List.drop_left, hwconfigParse, h]
  rfl

theorem isSome_bind_hitArg (opt stopchs T : List UInt8) (eqch : UInt8) (r : Option (List UInt8)) :
    (r.bind (hitArg opt stopchs eqch T false)).isSome = r.isSome := by
  cases r <;> rfl

theorem map_arg_iff {β : Type} (T : List UInt8) (o : Nat) (txt : β → List UInt8) (x : Option (Nat × Nat)) (y : Option (Nat × β)) :
    some (x.map fun r => (⟨T, o + r.1, r.2⟩ : HwArg)) = some (y.map fun r => ⟨T, o + r.1, (txt r.2).length⟩) ↔
      x = y.map fun r => (r.1, (txt r.2).length) := by
  rw [Option.some_inj]
  cases x with
  | none => cases y <;> simp
  | some r => cases y <;> simp [Prod.ext_iff]

theorem option_right_iff (hkey : key.chars ≠ []) (hsrc : hwSource e buf = some (hwText items)) :
    (hwconfigF key.chars e buf = some (items.any fun it => it.name = key) ∧ hwconfigArgF key.chars e buf =
        some ((firstVal subsText chColon key items 0).map fun r => ⟨hwText items, r.1, (subsText r.2).length⟩)) ↔
      Clear subsText key items := by
  have hd := delimited_items items
  have hfound : hwconfigF key.chars e buf = some (items.any fun it => it.name = key) ↔
      (∃ it ∈ items, it.name = key) ∨ ∀ it ∈ items, ¬Fakes subsText key it := by
    rw [← scan_found_iff hkey hd, hwconfigF, hwconfig_eq hkey hsrc, hwconfigIn_eq hkey, Option.map_some, Option.some_inj,
      Option.isSome_map, isSome_bind_hitArg]
    rfl
  have harg : hwconfigArgF key.chars e buf =
      some ((firstVal subsText chColon key items 0).map fun r => ⟨hwText items, r.1, (subsText r.2).length⟩) ↔ ¬Misleads subsText key items := by
    have h := map_arg_iff (hwText items) 0 subsText ((scan key.chars [chSemicolon] chColon true (hwText items)).bind
      (hitArg key.chars [chSemicolon] chColon (hwText items) true)) (firstVal subsText chColon key items 0)
    simp only [Nat.zero_add] at h
    rw [hwconfigArgF, hwconfig_eq hkey hsrc, hwconfigIn_eq hkey, h]
    exact scan_hitArg_iff hkey hd []
  rw [hfound, harg, Clear]

theorem sub_right_iff (hsub : subkey.chars ≠ []) {T A B : List UInt8} (hT : T = A ++ (subsText subs ++ B))
    (hB : ∀ c ∈ B.head?, c = chSemicolon) :
    ((hwconfigSub subkey.chars false ⟨T, A.length, (subsText subs).length⟩).map Option.isSome = some (subs.any fun s => s.name = subkey) ∧
      hwconfigSub subkey.chars true ⟨T, A.length, (subsText subs).length⟩ =
        some ((firstVal HwWord.chars chEquals subkey subs A.length).map fun r => ⟨T, r.1, r.2.chars.length⟩)) ↔
      Clear HwWord.chars subkey subs := by
  have hd := delimited_subs subs
  have hfound : (hwconfigSub subkey.chars false ⟨T, A.length, (subsText subs).length⟩).map Option.isSome =
      some (subs.any fun s => s.name = subkey) ↔ (∃ s ∈ subs, s.name = subkey) ∨ ∀ s ∈ subs, ¬Fakes HwWord.chars subkey s := by
    rw [← scan_found_iff hsub hd, hwconfigSub_eq hsub hT hB, Option.map_some, Option.some_inj, Option.isSome_map, isSome_bind_hitArg]
    rfl
  have harg : hwconfigSub subkey.chars true ⟨T, A.length, (subsText subs).length⟩ =
      some ((firstVal HwWord.chars chEquals subkey subs A.length).map fun r => ⟨T, r.1, r.2.chars.length⟩) ↔
        ¬Misleads HwWord.chars subkey subs := by
    have hadd : firstVal HwWord.chars chEquals subkey subs A.length =
        (firstVal HwWord.chars chEquals subkey subs 0).map fun r => (A.length + r.1, r.2) := firstVal_add A.length 0
    have h := map_arg_iff T A.length HwWord.chars ((scan subkey.chars [chComma, chSemicolon] chEquals true (subsText subs)).bind
      (hitArg subkey.chars [chComma, chSemicolon] chEquals (subsText subs) true)) (firstVal HwWord.chars chEquals subkey subs 0)
    rw [hwconfigSub_eq hsub hT hB, hadd, Option.map_map]
    refine h.trans ?_
    exact scan_hitArg_iff hsub hd []
  rw [hfound, harg, Clear]

end HwconfigAux

open HwconfigAux

/-- The queries answer by the grammar just if no name or value that ends with the option twice is met in its place. -/
theorem hwconfig_right_iff (items : List HwItem) (key subkey : HwWord) (hkey : key.chars ≠ []) (hsub : subkey.chars ≠ []) (e : HwEnv)
    (buf : Option (List UInt8)) (hsrc : hwSource e buf = some (hwText items)) :
    HwconfigRight items key subkey e buf ↔ HwconfigClear items key subkey := by
  have hopt := option_right_iff hkey hsrc
  have hval := firstVal_isSome_iff subsText chColon key items 0
  cases hfirst : firstVal subsText chColon key items 0 with
  | none =>
    rw [hfirst] at hval
    constructor
    · intro h
      refine ⟨hopt.1 ⟨h.found, h.arg⟩, fun it hit subs hsubs => ?_⟩
      cases hval.2 ⟨it, hit, by rw [hsubs]; rfl⟩
    · rintro ⟨hclear, -⟩
      obtain ⟨hfound, harg⟩ := hopt.2 hclear
      have hnone : hwconfig key.chars true e buf = some none := by
        rw [hfirst] at harg
        exact harg
      refine ⟨hfound, harg, ?_, ?_⟩
      · rw [hfirst, hwconfigSubF, hnone]
        rfl
      · rw [hfirst, hwconfigSubargF, hnone]
        rfl
  | some r =>
    obtain ⟨o, subs⟩ := r
    obtain ⟨⟨A, B, htext, rfl, hB⟩, it, hit, hsubs⟩ := split_of_firstVal chSemicolon [] hfirst
    have htext : hwText items = A ++ (subsText subs ++ B) := htext
    have hsubIff := sub_right_iff hsub htext hB
    have hrest : (∀ it, items.find? (fun it => it.name = key) = some it → ∀ subs ∈ it.val, Clear HwWord.chars subkey subs) ↔
        Clear HwWord.chars subkey subs := by
      constructor
      · exact fun h => h it hit subs hsubs
      · intro h it' hit' subs' hsubs'
        rw [hit] at hit'
        cases hit'
        rw [hsubs] at hsubs'
        cases hsubs'
        exact h
    rw [HwconfigClear, hrest, ← hopt, ← hsubIff]
    have hqueries : hwconfigArgF key.chars e buf =
          some ((firstVal subsText chColon key items 0).map fun r => ⟨hwText items, r.1, (subsText r.2).length⟩) →
        hwconfigSubF key.chars subkey.chars e buf =
          (hwconfigSub subkey.chars false ⟨hwText items, A.length, (subsText subs).length⟩).map Option.isSome ∧
        hwconfigSubargF key.chars subkey.chars e buf = hwconfigSub subkey.chars true ⟨hwText items, A.length, (subsText subs).length⟩ := by
      intro harg
      rw [hfirst, hwconfigArgF] at harg
      rw [hwconfigSubF, hwconfigSubargF, harg]
      exact ⟨rfl, rfl⟩
    constructor
    · intro h
      obtain ⟨hs, hsa⟩ := hqueries h.arg
      refine ⟨⟨h.found, h.arg⟩, ?_, ?_⟩
      · rw [← hs, h.sub, hfirst]
        rfl
      · rw [← hsa, h.subarg, hfirst]
        rfl
    · rintro ⟨⟨hfound, harg⟩, hs', hsa'⟩
      obtain ⟨hs, hsa⟩ := hqueries harg
      refine ⟨hfound, harg, ?_, ?_⟩
      · rw [hs, hs', hfirst]
        rfl
      · rw [hsa, hsa', hfirst]
        rfl

/-- `"a:b=c;ab"` answers for the option `a` and its sub-option `b`. -/
theorem hwconfig_right_small :
    HwconfigRight [⟨⟨[0x61], by decide⟩, some [⟨⟨[0x62], by decide⟩, some ⟨[0x63], by decide⟩⟩]⟩, ⟨⟨[0x61, 0x62], by decide⟩, none⟩]
      ⟨[0x61], by decide⟩ ⟨[0x62], by decide⟩ ⟨true, none⟩ (some [0x61, 0x3a, 0x62, 0x3d, 0x63, 0x3b, 0x61, 0x62]) :=
  (hwconfig_right_iff _ _ _ (by decide) (by decide) _ _ (by rfl)).2
    ⟨⟨Or.inl ⟨_, List.mem_cons_self .., rfl⟩, fun h => h.1 rfl⟩, fun it hit subs hsubs => by
      cases hit
      cases hsubs
      exact ⟨Or.inl ⟨_, List.mem_cons_self .., rfl⟩, fun h => h.1 rfl⟩⟩

/-- In `"abab"` the option `ab` is found. -/
theorem hwconfig_wrong_repeated :
    ¬HwconfigRight [⟨⟨[0x61, 0x62, 0x61, 0x62], by decide⟩, none⟩] ⟨[0x61, 0x62], by decide⟩ ⟨[0x63], by decide⟩ ⟨true, none⟩
      (some [0x61, 0x62, 0x61, 0x62]) := by
  intro h
  have hfound : hwconfigF [0x61, 0x62] ⟨true, none⟩ (some [0x61, 0x62, 0x61, 0x62]) = some true := by decide
  exact Bool.noConfusion (Option.some.inj (hfound.symm.trans h.found))

end UBoot

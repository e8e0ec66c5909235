import UBoot.Lemmas.StoredEnv

/-!
# The variables of a block

Any bytes are strings with a NUL after each, up to an empty one, or up to one that has no NUL before the bytes end. The value of a
variable is what the first string says that defines it. The lemmas say how these change with the strings.
-/

namespace UBoot

open Lib StoredEnvAux List

/-- The strings of the bytes, up to the empty one or the one without a NUL; `cur` is the part of a string already read. -/
def envStrings : List UInt8 → List UInt8 → List CString
  | _, [] => []
  | cur, c :: cs =>
    if c = 0 then if cur = [] then [] else CString.ofBytes cur :: envStrings [] cs
    else envStrings (cur ++ [c]) cs

/-- The bytes of the string without a NUL, if there is no empty string. -/
def envTail : List UInt8 → List UInt8 → Option (List UInt8)
  | cur, [] => some cur
  | cur, c :: cs => if c = 0 then if cur = [] then none else envTail [] cs else envTail (cur ++ [c]) cs

/-- The value of a variable. -/
def varValue (S : List CString) (k : CString) : Option CString :=
  S.findSome? fun s => if s.Defines k then some s.afterEquals else none

namespace EnvStringsAux

/-! ## Reading strings -/

variable {s k : CString} {S : List CString}

theorem envStrings_append {xs : List UInt8} (h0 : (0 : UInt8) ∉ xs) (cur rest : List UInt8) :
    envStrings cur (xs ++ rest) = envStrings (cur ++ xs) rest ∧ envTail cur (xs ++ rest) = envTail (cur ++ xs) rest := by
  induction xs generalizing cur with
  | nil => simp
  | cons x xs ih =>
    have hx : x ≠ 0 := fun h => h0 (h ▸ mem_cons_self)
    obtain ⟨h1, h2⟩ := ih (fun h => h0 (mem_cons_of_mem _ h)) (cur ++ [x])
    rw [cons_append, envStrings, envTail, if_neg hx, if_neg hx, h1, h2, append_assoc]
    exact ⟨rfl, rfl⟩

theorem envStrings_cons (hs : s.bytes ≠ []) (rest : List UInt8) :
    envStrings [] (storedString s ++ rest) = s :: envStrings [] rest ∧ envTail [] (storedString s ++ rest) = envTail [] rest := by
  obtain ⟨h1, h2⟩ := envStrings_append s.nul_free [] (0 :: rest)
  rw [storedString, append_assoc, singleton_append, h1, h2, nil_append, envStrings, envTail, if_pos rfl,
    if_pos rfl, if_neg hs, if_neg hs, CString.ofBytes_bytes]
  exact ⟨rfl, rfl⟩

theorem envStrings_strings (hS : ∀ s ∈ S, s.bytes ≠ []) (rest : List UInt8) :
    envStrings [] (S.flatMap storedString ++ rest) = S ++ envStrings [] rest ∧
      envTail [] (S.flatMap storedString ++ rest) = envTail [] rest := by
  induction S with
  | nil => exact ⟨rfl, rfl⟩
  | cons s S ih =>
    obtain ⟨h1, h2⟩ := ih fun t ht => hS t (mem_cons_of_mem _ ht)
    obtain ⟨h3, h4⟩ := envStrings_cons (hS s mem_cons_self) (S.flatMap storedString ++ rest)
    rw [flatMap_cons, append_assoc, h3, h4, h1, h2]
    exact ⟨rfl, rfl⟩

theorem envStrings_ended (hS : ∀ s ∈ S, s.bytes ≠ []) (rest : List UInt8) :
    envStrings [] (S.flatMap storedString ++ 0 :: rest) = S ∧ envTail [] (S.flatMap storedString ++ 0 :: rest) = none := by
  obtain ⟨h1, h2⟩ := envStrings_strings hS (0 :: rest)
  rw [h1, h2]
  simp [envStrings, envTail]

theorem envStrings_open (hS : ∀ s ∈ S, s.bytes ≠ []) {t : List UInt8} (ht : (0 : UInt8) ∉ t) :
    envStrings [] (S.flatMap storedString ++ t) = S ∧ envTail [] (S.flatMap storedString ++ t) = some t := by
  obtain ⟨h1, h2⟩ := envStrings_strings hS t
  obtain ⟨h3, h4⟩ := envStrings_append ht [] []
  rw [append_nil] at h3 h4
  rw [h1, h2, h3, h4]
  simp [envStrings, envTail]

theorem block_cases (b : List UInt8) : ∃ S : List CString, (∀ s ∈ S, s.bytes ≠ []) ∧
    ((∃ rest, b = S.flatMap storedString ++ 0 :: rest) ∨ ∃ t, (0 : UInt8) ∉ t ∧ b = S.flatMap storedString ++ t) := by
  have key (b : List UInt8) : ∀ cur : List UInt8, (0 : UInt8) ∉ cur → ∃ S : List CString, (∀ s ∈ S, s.bytes ≠ []) ∧
      ((∃ rest, cur ++ b = S.flatMap storedString ++ 0 :: rest) ∨ ∃ t, (0 : UInt8) ∉ t ∧ cur ++ b = S.flatMap storedString ++ t) := by
    induction b with
    | nil => exact fun cur h0 => ⟨[], by simp, Or.inr ⟨cur, h0, by simp⟩⟩
    | cons c b ih =>
      intro cur h0
      by_cases hc : c = 0
      · subst hc
        by_cases hcur : cur = []
        · exact ⟨[], by simp, Or.inl ⟨b, by simp [hcur]⟩⟩
        · obtain ⟨S, hS, hb⟩ := ih [] (by simp)
          rw [nil_append] at hb
          refine ⟨⟨cur, h0⟩ :: S, ?_, ?_⟩
          · intro s hs
            rcases mem_cons.1 hs with rfl | hs
            · exact hcur
            · exact hS s hs
          · rcases hb with ⟨rest, hb⟩ | ⟨t, ht, hb⟩
            · exact Or.inl ⟨rest, by rw [hb, flatMap_cons]; simp [storedString]⟩
            · exact Or.inr ⟨t, ht, by rw [hb, flatMap_cons]; simp [storedString]⟩
      · obtain ⟨S, hS, hb⟩ := ih (cur ++ [c]) (by simp [h0, Ne.symm hc])
        rw [append_assoc, singleton_append] at hb
        exact ⟨S, hS, hb⟩
  exact key b [] (by simp)

/-! ## Values -/

theorem varValue_append (S T : List CString) (k : CString) : varValue (S ++ T) k = (varValue S k).or (varValue T k) := by
  rw [varValue, findSome?_append]
  rfl

theorem varValue_eq_none_iff : varValue S k = none ↔ ∀ s ∈ S, ¬s.Defines k := by
  rw [varValue, findSome?_eq_none_iff]
  refine forall₂_congr fun s _ => ?_
  by_cases hs : s.Defines k <;> simp [hs]

theorem varValue_cons_of_defines (hs : s.Defines k) (S : List CString) :
    varValue (s :: S) k = some s.afterEquals := by
  rw [varValue, findSome?_cons_of_isSome (by simp [hs])]
  simp [hs]

theorem varValue_cons_of_not (hs : ¬s.Defines k) (S : List CString) : varValue (s :: S) k = varValue S k := by
  rw [varValue, findSome?_cons, if_neg hs]
  rfl

theorem varValue_of_equals (hk : chEquals ∈ k.bytes) (S : List CString) : varValue S k = none := by
  rw [varValue_eq_none_iff]
  rintro s - ⟨-, rfl⟩
  exact equals_notMem_beforeEquals s hk

theorem varValue_without {A B : List CString} {k' : CString} (hs : s.Defines k) (hk : k' ≠ k) :
    varValue (A ++ B) k' = varValue (A ++ s :: B) k' := by
  have hno : ¬s.Defines k' := fun h => hk (h.2.symm.trans hs.2)
  rw [varValue_append, varValue_append, varValue_cons_of_not hno]

theorem varValue_with {name value : CString} (hname : chEquals ∉ name.bytes) (k : CString) :
    varValue (S ++ [entryString (name, value)]) k = if k = name then some ((varValue S name).getD value) else varValue S k := by
  have hb : (entryString (name, value)).beforeEquals = name := beforeEquals_entryString hname
  have ha : (entryString (name, value)).afterEquals = value := afterEquals_entryString hname
  have hiff : (entryString (name, value)).Defines k ↔ k = name := by
    rw [CString.Defines, hb]
    exact ⟨fun h => h.2.symm, fun h => ⟨equals_mem_entryString _, h.symm⟩⟩
  rw [varValue_append]
  by_cases hk : k = name
  · rw [if_pos hk, varValue_cons_of_defines (hiff.2 hk), ha, hk]
    cases varValue S name <;> rfl
  · rw [if_neg hk, varValue_cons_of_not fun h => hk (hiff.1 h)]
    simp [varValue]

end EnvStringsAux
end UBoot

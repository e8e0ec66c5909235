import UBoot.Lemmas.ImportAux

/-!
# An import as a list of items

What a round of `himport_r` reads does not depend on the table. So the text is a list of items (a comment, a name to delete, a
variable to enter), and the loop takes one step on the table for each. What a step keeps for every item, the loop keeps.
-/

namespace UBoot

open CString

/-- What one round of the loop reads. -/
inductive ImportItem where
  | comment
  | delete (name : CString)
  | enter (name value : CString)
  deriving DecidableEq

/-- The variable an item names. -/
def ImportItem.name? : ImportItem → Option CString
  | .comment => none
  | .delete name => some name
  | .enter name _ => some name

/-- The item at the start of the data, and what is left after it. -/
def parseItem (sep : UInt8) (dp : List UInt8) : Option (ImportItem × List UInt8) :=
  match skipBlanks dp with
  | none => none
  | some dp =>
    if dp.head? = some chHash then (skipComment sep dp).map fun dp => (.comment, dp)
    else
      match parseName sep dp with
      | none => none
      | some (name, dp) =>
        match isDeleteEntry sep dp with
        | none => none
        | some true =>
          some (.delete (ofBytes name), if dp.head? = some chEquals then dp.drop 2 else dp.drop 1)
        | some false =>
          (parseValue sep (dp.drop 1)).map fun r => (.enter (ofBytes name) (ofBytes r.1), r.2)

/-- The items of the data, up to its end, a NUL, or a read outside it. -/
def parseItems (sep : UInt8) : Nat → List UInt8 → List ImportItem
  | 0, _ => []
  | fuel + 1, dp =>
    match parseItem sep dp with
    | none => []
    | some (item, dp) => if dp = [] ∨ dp.head? = some 0 then [item] else item :: parseItems sep fuel dp

/-- The verdict of the callback on a variable to enter, if it is asked. -/
def importDenied (apply : Option ApplyFn) (flag : Nat) (doApply : Bool) (name value : CString) (h : Htab) : Bool :=
  match apply with
  | some f => doApply && f name (hfind h name) (some value) flag
  | none => false

/-- What a round does with its item: whether the loop goes on, the table, and the variables left to process. -/
def itemStep (apply : Option ApplyFn) (flag : Nat) (doApply : Bool) (item : ImportItem) (h : Htab)
    (vars : List (Option CString)) : Option (Bool × Htab × List (Option CString)) :=
  match item with
  | .comment => some (true, h, vars)
  | .delete name =>
    if (dropVarFromSet name vars).1 then (hdeleteR name h).map fun r => (true, r.2, (dropVarFromSet name vars).2)
    else some (true, h, (dropVarFromSet name vars).2)
  | .enter name value =>
    if (dropVarFromSet name vars).1 then
      if importDenied apply flag doApply name value h then some (true, h, (dropVarFromSet name vars).2)
      else
        (hsearchR .ok ⟨name, some value⟩ .enter h).map fun r => (r.retval.isSome, r.htab, (dropVarFromSet name vars).2)
    else some (true, h, (dropVarFromSet name vars).2)

namespace ImportAux

variable {apply : Option ApplyFn} {sep : UInt8} {flag : Nat} {doApply : Bool}
variable {c d : UInt8} {P : List ImportItem → Htab → List (Option CString) → Prop}

/-! ## Reading an item -/

/-- What is read behind a name, from the byte that ends it. -/
def readNamed (sep : UInt8) (k dp : List UInt8) : Option (ImportItem × List UInt8) :=
  match isDeleteEntry sep dp with
  | none => none
  | some true => some (.delete (ofBytes k), if dp.head? = some chEquals then dp.drop 2 else dp.drop 1)
  | some false => (parseValue sep (dp.drop 1)).map fun r => (.enter (ofBytes k) (ofBytes r.1), r.2)

/-- What is read from the first byte that is no blank. -/
def readEntry (sep : UInt8) (dp : List UInt8) : Option (ImportItem × List UInt8) :=
  if dp.head? = some chHash then (skipComment sep dp).map fun dp => (.comment, dp)
  else (parseName sep dp).bind fun r => readNamed sep r.1 r.2

theorem parseItem_eq (dp : List UInt8) : parseItem sep dp = (skipBlanks dp).bind (readEntry sep) := by
  unfold parseItem readEntry readNamed
  cases skipBlanks dp with
  | none => rfl
  | some dp =>
    dsimp only [Option.bind_some]
    congr 1
    cases parseName sep dp <;> rfl

theorem readNamed_nul (k cs : List UInt8) : readNamed sep k (0 :: cs) = some (.delete (ofBytes k), cs) := by
  have hne : (0 : UInt8) ≠ chEquals := by decide
  simp [readNamed, isDeleteEntry, hne]

theorem readNamed_sep (k cs : List UInt8) (h0 : c ≠ 0) (hne : c ≠ chEquals) (hc : c = sep) :
    readNamed sep k (c :: d :: cs) = some (.delete (ofBytes k), d :: cs) := by
  subst hc
  simp [readNamed, isDeleteEntry, h0, hne]

theorem readNamed_equals (k cs : List UInt8) (hs : sep = chEquals ∨ d = 0 ∨ d = sep) :
    readNamed sep k (chEquals :: d :: cs) = some (.delete (ofBytes k), cs) := by
  have h0 : chEquals ≠ 0 := by decide
  have hdel : d = 0 ∨ chEquals = sep ∨ d = sep := by
    rcases hs with hs | hd | hd
    · exact Or.inr (Or.inl hs.symm)
    · exact Or.inl hd
    · exact Or.inr (Or.inr hd)
  have hdel' : isDeleteEntry sep (chEquals :: d :: cs) = some true := by
    simp only [isDeleteEntry, h0, if_false, Option.some.injEq, Bool.or_eq_true, decide_eq_true_eq, or_assoc]
    exact hdel
  simp [readNamed, hdel']

theorem readNamed_value (k cs : List UInt8) (hs : sep ≠ chEquals) (hd : ¬(d = 0 ∨ d = sep)) : readNamed sep k (chEquals :: d :: cs) =
      (parseValue sep (d :: cs)).map fun r => (.enter (ofBytes k) (ofBytes r.1), r.2) := by
  have h0 : chEquals ≠ 0 := by decide
  push Not at hd
  have hdel : isDeleteEntry sep (chEquals :: d :: cs) = some false := by
    simp [isDeleteEntry, h0, hd.1, hd.2, hs.symm]
  simp [readNamed, hdel]

theorem readEntry_named {k : List UInt8} (hk : ∀ c ∈ k, c ≠ chEquals ∧ c ≠ 0 ∧ c ≠ sep) (cs : List UInt8)
    (hend : c = chEquals ∨ c = 0 ∨ c = sep) (hhash : (k ++ [c]).head? ≠ some chHash) :
    readEntry sep (k ++ c :: cs) = readNamed sep k (c :: cs) := by
  have hhash' : (k ++ c :: cs).head? ≠ some chHash := by simpa [List.head?_append] using hhash
  rw [readEntry, if_neg hhash', parseName_append sep hk hend]
  rfl

/-! ## The loop -/

/-- A round reads an item and takes its step. -/
theorem importEntry_eq_itemStep (dp : List UInt8) (h : Htab) (vars : List (Option CString)) :
    importEntry apply sep flag doApply dp h vars = (parseItem sep dp).bind fun r =>
      (itemStep apply flag doApply r.1 h vars).map fun t =>
        if t.1 then ImportStep.next r.2 t.2.1 t.2.2 else ImportStep.insertFailed t.2.1 := by
  unfold importEntry parseItem
  cases skipBlanks dp with
  | none => rfl
  | some dp =>
    simp only
    by_cases hc : dp.head? = some chHash
    · rw [if_pos hc, if_pos hc]
      cases skipComment sep dp <;> rfl
    · rw [if_neg hc, if_neg hc]
      cases parseName sep dp with
      | none => rfl
      | some r =>
        simp only
        cases isDeleteEntry sep r.2 with
        | none => rfl
        | some b =>
          cases b with
          | true =>
            simp only [importDelete, Option.bind_some, itemStep]
            split
            · rw [Option.map_map]
              rfl
            · rfl
          | false =>
            cases parseValue sep (r.2.drop 1) with
            | none => rfl
            | some w =>
              simp only [importEnter, Option.map_some, Option.bind_some, itemStep]
              split
              · show (if importDenied apply flag doApply _ _ h = true then _ else _) = _
                split
                · rfl
                · rw [Option.map_map]
                  rfl
              · rfl

theorem importLoop_succ (fuel : Nat) (dp : List UInt8) (h : Htab) (vars : List (Option CString)) :
    importLoop apply sep flag doApply (fuel + 1) dp h vars = (parseItem sep dp).bind fun r =>
      (itemStep apply flag doApply r.1 h vars).bind fun t =>
        if t.1 then
          if r.2 = [] ∨ r.2.head? = some 0 then some (true, t.2.1, t.2.2) else importLoop apply sep flag doApply fuel r.2 t.2.1 t.2.2
        else some (false, t.2.1, vars) := by
  rw [importLoop, importEntry_eq_itemStep]
  cases parseItem sep dp with
  | none => rfl
  | some r =>
    cases hi : itemStep apply flag doApply r.1 h vars with
    | none => simp [hi]
    | some t =>
      obtain ⟨ok, h', vars'⟩ := t
      cases ok <;> simp [hi]

/-- The rule for the loop: what the step on each item keeps, with the items after it, holds at the end; and what a failed
insertion leaves satisfies `Q`. -/
theorem importLoop_items {Q : Htab → Prop}
    (hstep : ∀ item items h vars ok h' vars', P (item :: items) h vars →
      itemStep apply flag doApply item h vars = some (ok, h', vars') → if ok then P items h' vars' else Q h')
    {fuel : Nat} {dp : List UInt8} {h h' : Htab} {vars vars' : List (Option CString)} {ok : Bool}
    (hloop : importLoop apply sep flag doApply fuel dp h vars = some (ok, h', vars')) (hP : P (parseItems sep fuel dp) h vars) :
    if ok then P [] h' vars' else Q h' := by
  induction fuel generalizing dp h vars with
  | zero => simp [importLoop] at hloop
  | succ fuel ih =>
    rw [importLoop_succ] at hloop
    rw [parseItems] at hP
    obtain ⟨⟨item, rest⟩, hp, hloop⟩ := Option.bind_eq_some_iff.1 hloop
    obtain ⟨⟨ok₁, h₁, vars₁⟩, hi, hloop⟩ := Option.bind_eq_some_iff.1 hloop
    simp only [hp] at hP
    dsimp only at hi hloop
    cases ok₁ with
    | false =>
      simp only [Bool.false_eq_true, if_false, Option.some.injEq, Prod.mk.injEq] at hloop
      obtain ⟨rfl, rfl, -⟩ := hloop
      split at hP
      · exact hstep item [] h vars false h₁ vars₁ hP hi
      · exact hstep item (parseItems sep fuel rest) h vars false h₁ vars₁ hP hi
    | true =>
      simp only [if_true] at hloop
      by_cases hend : rest = [] ∨ rest.head? = some 0
      · rw [if_pos hend] at hP hloop
        simp only [Option.some.injEq, Prod.mk.injEq] at hloop
        obtain ⟨rfl, rfl, rfl⟩ := hloop
        exact hstep item [] h vars true _ _ hP hi
      · rw [if_neg hend] at hP hloop
        exact ih hloop (hstep item _ h vars true _ _ hP hi)

end ImportAux
end UBoot

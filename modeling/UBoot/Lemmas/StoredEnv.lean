import UBoot.FwEnv
import UBoot.Lemmas.ExportAux
import UBoot.Lemmas.ImportAux

/-!
# A stored environment

The bytes of an environment as the scans of `getenv_f` and of the Linux tool find them: entries `name=text` with a NUL after
each, and one more NUL. What `hexport_r` writes with a NUL as the separator are such entries, with the escaped value as the text.
-/

namespace UBoot

open Lib Htab HashMapAux ExportAux ImportAux List

/-- The part of a string before its first equals sign: the name `envmatch` compares. -/
def CString.beforeEquals (s : CString) : CString where
  bytes := s.bytes.takeWhile (· != chEquals)
  nul_free h := s.nul_free ((List.takeWhile_prefix _).subset h)

/-- The part of a string behind its first equals sign: what `envmatch` points to. -/
def CString.afterEquals (s : CString) : CString where
  bytes := (s.bytes.dropWhile (· != chEquals)).tail
  nul_free h := s.nul_free ((dropWhile_suffix _).subset (mem_of_mem_tail h))

/-- A string `name=value` of a block defines its name. -/
def CString.Defines (s k : CString) : Prop := chEquals ∈ s.bytes ∧ s.beforeEquals = k

instance (s k : CString) : Decidable (s.Defines k) := inferInstanceAs (Decidable (_ ∧ _))

/-- The strings that `envmatch` does not pass: it stops at one that defines the name before the first equals sign, and does
not stop at a string without one that is the name. -/
def CString.Meets (name s : CString) : Prop := s.Defines name.beforeEquals ∨ (chEquals ∉ s.bytes ∧ s = name)

namespace StoredEnvAux

variable {envGetChar : Nat → UInt8}
variable {s name : CString} {rest : List UInt8} {i envSize fuel env : Nat} {L : List (CString × CString)} {e : CString × CString}

theorem bytes_inj {t : CString} (h : s.bytes = t.bytes) : s = t := by
  cases s
  cases t
  simpa using h

theorem bytes_eq_of_equals (h : chEquals ∈ s.bytes) : s.bytes = s.beforeEquals.bytes ++ chEquals :: s.afterEquals.bytes := by
  have hne : s.bytes.dropWhile (· != chEquals) ≠ [] := by
    intro hnil
    rw [dropWhile_eq_nil_iff] at hnil
    simpa using hnil _ h
  have hhead : (s.bytes.dropWhile (· != chEquals)).head hne = chEquals := by
    simpa using head_dropWhile_not (· != chEquals) hne
  have hcons := cons_head_tail hne
  rw [hhead] at hcons
  rw [CString.afterEquals, hcons, CString.beforeEquals, takeWhile_append_dropWhile]

theorem equals_notMem_beforeEquals (s : CString) : chEquals ∉ s.beforeEquals.bytes := by
  intro h
  simpa using mem_takeWhile_imp h

theorem beforeEquals_eq_self (h : chEquals ∉ s.bytes) : s.beforeEquals = s := by
  cases s with
  | mk bs hn =>
    simp only [CString.beforeEquals, CString.mk.injEq]
    rw [takeWhile_eq_self_iff]
    intro c hc
    simpa using fun he : c = chEquals => h (he ▸ hc)

/-! ## The loops over one entry -/

theorem entryEnd_stored {xs : List UInt8} (rest : List UInt8) (h0 : (0 : UInt8) ∉ xs) {left nxt : Nat} (hleft : xs.length ≤ left)
    (hst : Stored envGetChar nxt (xs ++ 0 :: rest)) : entryEnd envGetChar left nxt = some (nxt + xs.length) := by
  induction xs generalizing left nxt with
  | nil =>
    obtain ⟨h, -⟩ := stored_cons.1 hst
    cases left <;> simp [entryEnd, h]
  | cons x xs ih =>
    obtain ⟨h, hst⟩ := stored_cons.1 hst
    have hx : x ≠ 0 := fun he => h0 (he ▸ mem_cons_self)
    cases left with
    | zero => simp at hleft
    | succ left =>
      rw [entryEnd, h, if_neg hx, ih (fun he => h0 (mem_cons_of_mem _ he)) (by simpa using hleft) hst, length_cons,
        Nat.add_assoc, Nat.add_comm 1]

/-- `envmatch` at an entry compares the string before its first equals sign with the entry's name. -/
theorem envmatch_stored {k : List UInt8} (hk : chEquals ∉ k) (hk0 : (0 : UInt8) ∉ k) (name : List UInt8)
    (hst : Stored envGetChar i (k ++ chEquals :: rest)) :
    envmatch envGetChar name i = some (if name.takeWhile (· != chEquals) = k then some (i + k.length + 1) else none) := by
  induction name generalizing k i with
  | nil =>
    cases k with
    | nil =>
      obtain ⟨h, -⟩ := stored_cons.1 hst
      have he : chEquals ≠ 0 := by decide
      simp [envmatch, h, he]
    | cons d k =>
      obtain ⟨h, -⟩ := stored_cons.1 hst
      have hd : d ≠ 0 ∧ d ≠ chEquals := ⟨fun he => hk0 (he ▸ mem_cons_self), fun he => hk (he ▸ mem_cons_self)⟩
      simp [envmatch, h, hd.1, hd.2]
  | cons c name ih =>
    cases k with
    | nil =>
      obtain ⟨h, -⟩ := stored_cons.1 hst
      by_cases hc : c = chEquals
      · simp [envmatch, h, hc]
      · simp [envmatch, h, hc]
    | cons d k =>
      obtain ⟨h, hst'⟩ := stored_cons.1 hst
      have hd : d ≠ chEquals := fun he => hk (he ▸ mem_cons_self)
      by_cases hc : c = d
      · subst hc
        rw [envmatch, h, if_pos rfl, if_neg hd, ih (fun he => hk (mem_cons_of_mem _ he)) (fun he => hk0 (mem_cons_of_mem _ he)) hst']
        simp [hd, Nat.add_assoc, Nat.add_comm 1]
      · have hne : List.takeWhile (· != chEquals) (c :: name) ≠ d :: k := by
          by_cases hce : c = chEquals
          · simp [hce]
          · simp [hce, hc]
        rw [envmatch, h, if_neg hc, if_neg hne]

/-- At a string without an equals sign `envmatch` finds nothing, except that it does not stop at the same string. -/
theorem envmatch_noEquals {s : List UInt8} (hs : chEquals ∉ s) (hs0 : (0 : UInt8) ∉ s) {name : List UInt8}
    (hn0 : (0 : UInt8) ∉ name) (hst : Stored envGetChar i (s ++ [0])) :
    envmatch envGetChar name i = if s = name then none else some none := by
  induction name generalizing s i with
  | nil =>
    cases s with
    | nil => simp [envmatch, (stored_cons.1 hst).1]
    | cons d s =>
      have hd : d ≠ 0 ∧ d ≠ chEquals := ⟨fun he => hs0 (he ▸ mem_cons_self), fun he => hs (he ▸ mem_cons_self)⟩
      simp [envmatch, (stored_cons.1 hst).1, hd.1, hd.2]
  | cons c name ih =>
    have hc : c ≠ 0 := fun he => hn0 (he ▸ mem_cons_self)
    cases s with
    | nil => simp [envmatch, (stored_cons.1 hst).1, hc]
    | cons d s =>
      obtain ⟨h, hst'⟩ := stored_cons.1 hst
      have hd : d ≠ chEquals := fun he => hs (he ▸ mem_cons_self)
      by_cases hcd : c = d
      · subst hcd
        rw [envmatch, h, if_pos rfl, if_neg hd, ih (fun he => hs (mem_cons_of_mem _ he))
          (fun he => hs0 (mem_cons_of_mem _ he)) (fun he => hn0 (mem_cons_of_mem _ he)) hst']
        simp
      · rw [envmatch, h, if_neg hcd, if_neg (by simp [Ne.symm hcd])]

/-! ## Escaped values -/

/-- A value as it is stored with a NUL as the separator. -/
def escaped (v : CString) : List UInt8 := v.bytes.flatMap (escapeByte 0)

theorem nul_notMem_escaped (v : CString) : (0 : UInt8) ∉ escaped v := by
  intro h
  obtain ⟨c, hc, h⟩ := mem_flatMap.1 h
  have hc0 : c ≠ 0 := fun he => v.nul_free (he ▸ hc)
  unfold escapeByte at h
  split at h
  · simp [hc0.symm, chBackslash] at h
  · simp [hc0.symm] at h

/-- A value is stored as it is exactly when it has no backslash; otherwise it is stored longer. -/
theorem escaped_cases (v : CString) :
    (chBackslash ∉ v.bytes ∧ escaped v = v.bytes) ∨ (chBackslash ∈ v.bytes ∧ v.bytes.length < (escaped v).length) := by
  have key (bs : List UInt8) (h0 : (0 : UInt8) ∉ bs) : bs.length ≤ (bs.flatMap (escapeByte 0)).length ∧
      ((chBackslash ∉ bs ∧ bs.flatMap (escapeByte 0) = bs) ∨ (chBackslash ∈ bs ∧ bs.length < (bs.flatMap (escapeByte 0)).length)) := by
    induction bs with
    | nil => simp
    | cons c bs ih =>
      obtain ⟨hle, ih⟩ := ih fun h => h0 (mem_cons_of_mem _ h)
      have hc : c ≠ 0 := fun h => h0 (h ▸ mem_cons_self)
      by_cases hb : c = chBackslash
      · have he : escapeByte 0 c = [chBackslash, c] := by simp [escapeByte, hb]
        simp only [flatMap_cons, he, length_append, length_cons, length_nil]
        exact ⟨by omega, Or.inr ⟨by simp [hb], by omega⟩⟩
      · have he : escapeByte 0 c = [c] := by simp [escapeByte, hb, hc]
        simp only [flatMap_cons, he, length_append, length_cons, length_nil]
        refine ⟨by omega, ?_⟩
        rcases ih with ⟨hno, hbs⟩ | ⟨hin, hlt⟩
        · exact Or.inl ⟨by simp [hno, Ne.symm hb], by simp [hbs]⟩
        · exact Or.inr ⟨mem_cons_of_mem _ hin, by omega⟩
  exact (key v.bytes v.nul_free).2

/-! ## Reading a text back -/

/-- What an import makes of the text of an entry: a backslash is dropped, and the byte after it is kept. -/
def unescape : List UInt8 → List UInt8
  | [] => []
  | [c] => [c]
  | c :: d :: cs => if c = chBackslash then d :: unescape cs else c :: unescape (d :: cs)

theorem unescape_subset (t : List UInt8) : ∀ c ∈ unescape t, c ∈ t := by
  induction t using unescape.induct with
  | case1 => simp [unescape]
  | case2 c => simp [unescape]
  | case3 d cs ih =>
    rw [unescape, if_pos rfl]
    intro x hx
    rcases mem_cons.1 hx with rfl | hx
    · simp
    · exact mem_cons_of_mem _ (mem_cons_of_mem _ (ih x hx))
  | case4 c d cs hc ih =>
    rw [unescape, if_neg hc]
    intro x hx
    rcases mem_cons.1 hx with rfl | hx
    · simp
    · exact mem_cons_of_mem _ (ih x hx)

theorem length_unescape_le (t : List UInt8) : (unescape t).length ≤ t.length := by
  induction t using unescape.induct with
  | case1 => simp [unescape]
  | case2 c => simp [unescape]
  | case3 d cs ih =>
    rw [unescape, if_pos rfl]
    simp only [length_cons]
    omega
  | case4 c d cs hc ih =>
    rw [unescape, if_neg hc]
    simpa using ih

/-- A text is read back as it is exactly when no backslash stands before its last byte. -/
theorem unescape_eq_self_iff (t : List UInt8) : unescape t = t ↔ chBackslash ∉ t.dropLast := by
  induction t using unescape.induct with
  | case1 => simp [unescape]
  | case2 c => simp [unescape]
  | case3 d cs ih =>
    rw [unescape, if_pos rfl]
    have hle := length_unescape_le cs
    refine ⟨?_, fun h => absurd (by simp) h⟩
    intro h
    have := congrArg List.length h
    simp only [length_cons] at this
    omega
  | case4 c d cs hc ih =>
    rw [unescape, if_neg hc, dropLast_cons_of_ne_nil (cons_ne_nil d cs), mem_cons, not_or]
    simp only [List.cons.injEq, true_and, ih]
    exact ⟨fun h => ⟨Ne.symm hc, h⟩, And.right⟩

/-- The loop over a value on the text of an entry. -/
theorem parseValue_text {t : List UInt8} (ht : (0 : UInt8) ∉ t) (rest : List UInt8) :
    parseValue 0 (t ++ 0 :: rest) = some (unescape t, rest) := by
  have hb : chBackslash ≠ 0 := by decide
  induction t using unescape.induct with
  | case1 => exact parseValue_stop (Or.inl rfl) rest
  | case2 c =>
    have hc : c ≠ 0 := fun h => ht (h ▸ mem_cons_self)
    by_cases hcb : c = chBackslash
    · rw [hcb, singleton_append, parseValue.eq_def]
      simp [hb, parseValue_stop, unescape]
    · rw [singleton_append, parseValue_plain ⟨hc, hc⟩ hcb, parseValue_stop (Or.inl rfl)]
      rfl
  | case3 d cs ih =>
    have hd : d ≠ 0 := fun h => ht (by simp [h])
    rw [cons_append, cons_append, parseValue_escape hb hd, ih fun h => ht (by simp [h]), unescape, if_pos rfl]
    rfl
  | case4 c d cs hcb ih =>
    have hc : c ≠ 0 := fun h => ht (h ▸ mem_cons_self)
    rw [cons_append, parseValue_plain ⟨hc, hc⟩ hcb, ih fun h => ht (mem_cons_of_mem _ h), unescape, if_neg hcb]
    rfl

theorem unescape_escaped (v : CString) : unescape (escaped v) = v.bytes := by
  have h1 := parseValue_text (nul_notMem_escaped v) []
  have h2 := parseValue_escaped (show SepOk 0 from ⟨by decide, by decide⟩) v.nul_free []
  exact (Prod.mk.inj (Option.some.inj (h1.symm.trans h2))).1

/-! ## Entries -/

/-- An entry of a stored environment. -/
def storedEntry (e : CString × CString) : List UInt8 := e.1.bytes ++ chEquals :: (e.2.bytes ++ [0])

/-- A value with its escapes, as a string. -/
def escapedString (v : CString) : CString := ⟨escaped v, nul_notMem_escaped v⟩

/-- The stored entries an export writes. -/
def escapedEntry (e : CString × CString) : CString × CString := (e.1, escapedString e.2)

theorem flatMap_exportEntry (L : List (CString × CString)) : L.flatMap (exportEntry 0) = (L.map escapedEntry).flatMap storedEntry := by
  rw [flatMap_map]
  rfl

theorem exists_of_mem_escapedEntry {k t : CString} (h : (k, t) ∈ L.map escapedEntry) :
    ∃ v, t = escapedString v ∧ (k, v) ∈ L := by
  obtain ⟨⟨k', v⟩, hkv, he⟩ := mem_map.1 h
  obtain ⟨rfl, rfl⟩ := Prod.mk.inj he
  exact ⟨v, rfl, hkv⟩

theorem mem_escapedEntry {k v : CString} (h : (k, v) ∈ L) : (k, escapedString v) ∈ L.map escapedEntry :=
  mem_map.2 ⟨(k, v), h, rfl⟩

theorem map_fst_escapedEntry (L : List (CString × CString)) : (L.map escapedEntry).map Prod.fst = L.map Prod.fst := by
  rw [map_map]
  rfl

/-- The variable an import enters for a stored entry. -/
def importedEntry (e : CString × CString) : CString × CString :=
  (e.1, ⟨unescape e.2.bytes, fun h => e.2.nul_free (unescape_subset _ _ h)⟩)

theorem importedEntry_escapedEntry (e : CString × CString) : importedEntry (escapedEntry e) = e := by
  obtain ⟨k, v⟩ := e
  simp only [importedEntry, escapedEntry, escapedString, unescape_escaped]

theorem importedEntry_eq_self_iff (k v : CString) : importedEntry (k, v) = (k, v) ↔ chBackslash ∉ v.bytes.dropLast := by
  rw [← unescape_eq_self_iff]
  cases v
  simp [importedEntry]

theorem escapedString_eq_self_iff (v : CString) : escapedString v = v ↔ chBackslash ∉ v.bytes := by
  rcases escaped_cases v with ⟨hno, he⟩ | ⟨hin, hlt⟩
  · refine ⟨fun _ => hno, ?_⟩
    intro _
    cases v
    simpa [escapedString] using he
  · refine ⟨?_, fun h => absurd hin h⟩
    intro h
    rw [← congrArg CString.bytes h] at hlt
    exact absurd hlt (Nat.lt_irrefl _)

theorem encodes_storedEntry {apply : Option ApplyFn} {flag : Nat} {doApply : Bool}
    (hk : NameOk 0 e.1) (hv : e.2.bytes ≠ []) : Encodes apply 0 flag doApply (storedEntry e) (importedEntry e) where
  head := by
    obtain ⟨c, cs, hcs⟩ := exists_cons_of_ne_nil hk.ne_nil
    refine ⟨c, _, by rw [storedEntry, hcs]; rfl, fun h => e.1.nul_free ?_⟩
    rw [hcs, h]
    exact mem_cons_self
  enters rest h vars := by
    have hbytes : storedEntry e ++ rest = e.1.bytes ++ chEquals :: (e.2.bytes ++ 0 :: rest) := by simp [storedEntry]
    obtain ⟨c, cs, hcs⟩ := exists_cons_of_ne_nil hv
    have hc : c ≠ 0 := fun h => e.2.nul_free (by rw [hcs, h]; exact mem_cons_self)
    have h0 : chEquals ≠ 0 := by decide
    rw [hbytes]
    refine importEntry_named hk ?_ (parseValue_text e.2.nul_free rest) h vars
    simp [isDeleteEntry, hcs, hc, h0]

theorem length_storedEntry (e : CString × CString) : (storedEntry e).length = e.1.bytes.length + 1 + e.2.bytes.length + 1 := by
  simp only [storedEntry, length_append, length_cons, length_nil]
  omega

theorem length_le_flatMap_storedEntry (L : List (CString × CString)) : L.length ≤ (L.flatMap storedEntry).length := by
  induction L with
  | nil => exact Nat.le_refl _
  | cons e L ih =>
    rw [flatMap_cons, length_append, length_cons, length_storedEntry]
    omega

theorem stored_string_inj {u v : CString} (hu : Stored envGetChar i (u.bytes ++ [0]))
    (hv : Stored envGetChar i (v.bytes ++ [0])) : u = v := by
  have key (xs ys : List UInt8) (hx : (0 : UInt8) ∉ xs) (hy : (0 : UInt8) ∉ ys) (i : Nat)
      (hxs : Stored envGetChar i (xs ++ [0])) (hys : Stored envGetChar i (ys ++ [0])) : xs = ys := by
    induction xs generalizing ys i with
    | nil =>
      cases ys with
      | nil => rfl
      | cons y ys =>
        have he := (stored_cons.1 hxs).1.symm.trans (stored_cons.1 hys).1
        exact absurd (he ▸ mem_cons_self) hy
    | cons x xs ih =>
      cases ys with
      | nil =>
        have he := (stored_cons.1 hys).1.symm.trans (stored_cons.1 hxs).1
        exact absurd (he ▸ mem_cons_self) hx
      | cons y ys =>
        obtain ⟨h1, hxs⟩ := stored_cons.1 hxs
        obtain ⟨h2, hys⟩ := stored_cons.1 hys
        rw [← h1, ← h2, ih ys (fun h => hx (mem_cons_of_mem _ h)) (fun h => hy (mem_cons_of_mem _ h)) _ hxs hys]
  have he := key u.bytes v.bytes u.nul_free v.nul_free i hu hv
  cases u
  cases v
  simp only [CString.mk.injEq]
  exact he

/-! ## Strings -/

/-- A string of a block, with the NUL after it. -/
def storedString (s : CString) : List UInt8 := s.bytes ++ [0]

theorem length_storedString (s : CString) : (storedString s).length = s.bytes.length + 1 := by simp [storedString]

theorem stored_split {A B : List CString}
    (h : Stored envGetChar 0 ((A ++ s :: B).flatMap storedString ++ rest)) :
    Stored envGetChar 0 (A.flatMap storedString) ∧ Stored envGetChar (A.flatMap storedString).length (storedString s) ∧
      Stored envGetChar ((A.flatMap storedString).length + (storedString s).length) (B.flatMap storedString ++ rest) := by
  rwa [flatMap_append, flatMap_cons, append_assoc, append_assoc, stored_append, stored_append, Nat.zero_add] at h

theorem length_split (A B : List CString) (s : CString) (rest : List UInt8) : ((A ++ s :: B).flatMap storedString ++ rest).length =
      (A.flatMap storedString).length + s.bytes.length + 1 + (B.flatMap storedString ++ rest).length := by
  rw [flatMap_append, flatMap_cons, append_assoc, append_assoc, length_append, length_append, length_storedString]
  omega

/-- An entry as the string it is stored as. -/
def entryString (e : CString × CString) : CString where
  bytes := e.1.bytes ++ chEquals :: e.2.bytes
  nul_free h := by
    have h0 : (0 : UInt8) ≠ chEquals := by decide
    simp [e.1.nul_free, e.2.nul_free, h0] at h

theorem storedString_entryString (e : CString × CString) : storedString (entryString e) = storedEntry e := by
  simp [storedString, entryString, storedEntry]

theorem flatMap_entryString (L : List (CString × CString)) : (L.map entryString).flatMap storedString = L.flatMap storedEntry := by
  rw [flatMap_map]
  simp only [storedString_entryString]

theorem entryString_ne_nil (e : CString × CString) : (entryString e).bytes ≠ [] := by simp [entryString]

theorem equals_mem_entryString (e : CString × CString) : chEquals ∈ (entryString e).bytes := by simp [entryString]

theorem beforeEquals_entryString (he : chEquals ∉ e.1.bytes) : (entryString e).beforeEquals = e.1 := by
  obtain ⟨⟨k, hk⟩, u⟩ := e
  have hall : ∀ c ∈ k, (c != chEquals) = true := by
    intro c hc
    simpa using fun h : c = chEquals => he (h ▸ hc)
  simp [entryString, CString.beforeEquals, takeWhile_append_of_pos hall]

theorem afterEquals_entryString (he : chEquals ∉ e.1.bytes) : (entryString e).afterEquals = e.2 := by
  obtain ⟨⟨k, hk⟩, u⟩ := e
  have hall : ∀ c ∈ k, (c != chEquals) = true := by
    intro c hc
    simpa using fun h : c = chEquals => he (h ▸ hc)
  simp [entryString, CString.afterEquals, dropWhile_append_of_pos hall]

theorem scan_storedString (hne : s.bytes ≠ []) {left : Nat} (hst : Stored envGetChar i (storedString s))
    (hleft : s.bytes.length ≤ left) : envGetChar i ≠ 0 ∧ entryEnd envGetChar left i = some (i + s.bytes.length) := by
  refine ⟨?_, entryEnd_stored [] s.nul_free hleft hst⟩
  obtain ⟨c, cs, hcs⟩ := exists_cons_of_ne_nil hne
  rw [storedString, hcs] at hst
  rw [(stored_cons.1 hst).1]
  exact fun h => s.nul_free (by rw [hcs, h]; exact mem_cons_self)

theorem fwSearch_skip (hne : s.bytes ≠ []) (hno : ¬name.Meets s)
    (hst : Stored envGetChar env (storedString s)) (hsize : env + s.bytes.length ≤ envSize) :
    fwSearch envGetChar envSize name (fuel + 1) env = fwSearch envGetChar envSize name fuel (env + (storedString s).length) := by
  obtain ⟨hfirst, hend⟩ := scan_storedString hne hst (show s.bytes.length ≤ envSize - env by omega)
  have hmatch : envmatch envGetChar name.bytes env = some none := by
    by_cases heq : chEquals ∈ s.bytes
    · rw [storedString, bytes_eq_of_equals heq, append_assoc, cons_append] at hst
      rw [envmatch_stored (equals_notMem_beforeEquals s) s.beforeEquals.nul_free _ hst, if_neg]
      intro h
      exact hno (Or.inl ⟨heq, bytes_inj h.symm⟩)
    · rw [envmatch_noEquals heq s.nul_free name.nul_free hst, if_neg]
      intro h
      exact hno (Or.inr ⟨heq, bytes_inj h⟩)
  rw [fwSearch, if_neg hfirst, hend]
  simp only [hmatch]
  rw [length_storedString, Nat.add_assoc]

theorem fwSearch_found (hs : s.Defines name.beforeEquals)
    (hst : Stored envGetChar env (storedString s)) (hsize : env + s.bytes.length ≤ envSize) :
    fwSearch envGetChar envSize name (fuel + 1) env = some (.found env (env + s.bytes.length) (env + s.beforeEquals.bytes.length + 1)) := by
  obtain ⟨heq, hk⟩ := hs
  obtain ⟨hfirst, hend⟩ := scan_storedString (ne_nil_of_mem heq) hst (show s.bytes.length ≤ envSize - env by omega)
  rw [storedString, bytes_eq_of_equals heq, append_assoc, cons_append] at hst
  have hmatch := envmatch_stored (equals_notMem_beforeEquals s) s.beforeEquals.nul_free name.bytes hst
  rw [if_pos (show name.bytes.takeWhile (· != chEquals) = s.beforeEquals.bytes from (congrArg CString.bytes hk).symm)] at hmatch
  rw [fwSearch, if_neg hfirst, hend]
  simp only [hmatch]

theorem fwSearch_stuck (hs : chEquals ∉ s.bytes) (hne : s.bytes ≠ [])
    (hst : Stored envGetChar env (storedString s)) (hsize : env + s.bytes.length ≤ envSize) :
    fwSearch envGetChar envSize s (fuel + 1) env = none := by
  obtain ⟨hfirst, hend⟩ := scan_storedString hne hst (show s.bytes.length ≤ envSize - env by omega)
  have hmatch : envmatch envGetChar s.bytes env = none := by
    rw [envmatch_noEquals hs s.nul_free s.nul_free hst, if_pos rfl]
  rw [fwSearch, if_neg hfirst, hend]
  simp only [hmatch]

theorem fwSearch_skips {S : List CString} (hne : ∀ s ∈ S, s.bytes ≠ [])
    (hno : ∀ s ∈ S, ¬name.Meets s) (fuel : Nat) (hst : Stored envGetChar env (S.flatMap storedString))
    (hsize : env + (S.flatMap storedString).length ≤ envSize + 1) :
    fwSearch envGetChar envSize name (fuel + S.length) env = fwSearch envGetChar envSize name fuel (env + (S.flatMap storedString).length) := by
  induction S generalizing env with
  | nil => rfl
  | cons s S ih =>
    rw [flatMap_cons, stored_append] at hst
    rw [flatMap_cons, length_append] at hsize ⊢
    have hlen := length_storedString s
    rw [length_cons, ← Nat.add_assoc, fwSearch_skip (hne s mem_cons_self) (hno s mem_cons_self) hst.1 (by omega),
      ih (fun s hs => hne s (mem_cons_of_mem _ hs)) (fun s hs => hno s (mem_cons_of_mem _ hs)) hst.2 (by omega),
      Nat.add_assoc]

theorem length_le_flatMap_storedString (S : List CString) : S.length ≤ (S.flatMap storedString).length := by
  induction S with
  | nil => exact Nat.le_refl _
  | cons s S ih =>
    rw [flatMap_cons, length_append, length_cons, length_storedString]
    omega

/-! ## Searching entries -/

theorem meets_entryString (he : chEquals ∉ e.1.bytes) :
    name.Meets (entryString e) ↔ e.1 = name.beforeEquals := by
  have heq := equals_mem_entryString e
  rw [CString.Meets, CString.Defines, beforeEquals_entryString he]
  simp [heq]

/-- The scan over the entries from `env` on ends at the first entry of the name, or finds none. -/
theorem fwSearch_entries (envSize : Nat) (name : CString) (L : List (CString × CString)) (hL : ∀ e ∈ L, chEquals ∉ e.1.bytes)
    (fuel env : Nat) (hfuel : L.length < fuel) (hst : Stored envGetChar env (L.flatMap storedEntry ++ [0]))
    (hsize : env + (L.flatMap storedEntry).length ≤ envSize) :
    (∀ A e B, L = A ++ e :: B → name.beforeEquals ∉ A.map Prod.fst → e.1 = name.beforeEquals →
      fwSearch envGetChar envSize name fuel env = some (.found (env + (A.flatMap storedEntry).length)
        (env + (A.flatMap storedEntry).length + (e.1.bytes.length + 1 + e.2.bytes.length))
        (env + (A.flatMap storedEntry).length + e.1.bytes.length + 1))) ∧
    (name.beforeEquals ∉ L.map Prod.fst → fwSearch envGetChar envSize name fuel env = some .absent) := by
  have hskip (A : List (CString × CString)) (hA : ∀ e ∈ A, chEquals ∉ e.1.bytes) (hno : name.beforeEquals ∉ A.map Prod.fst)
      (fuel : Nat) (hstA : Stored envGetChar env (A.flatMap storedEntry))
      (hsizeA : env + (A.flatMap storedEntry).length ≤ envSize + 1) :
      fwSearch envGetChar envSize name (fuel + A.length) env = fwSearch envGetChar envSize name fuel (env + (A.flatMap storedEntry).length) := by
    have hlen : (A.map entryString).length = A.length := length_map entryString
    rw [← flatMap_entryString] at hstA hsizeA ⊢
    rw [← hlen]
    refine fwSearch_skips ?_ ?_ fuel hstA hsizeA
    · intro s hs
      obtain ⟨e, -, rfl⟩ := mem_map.1 hs
      exact entryString_ne_nil e
    · intro s hs
      obtain ⟨e, he, rfl⟩ := mem_map.1 hs
      rw [meets_entryString (hA e he)]
      exact fun h => hno (mem_map.2 ⟨e, he, h⟩)
  refine ⟨?_, ?_⟩
  · rintro A e B rfl hA he
    obtain ⟨fuel, rfl⟩ : ∃ f, fuel = f + 1 + A.length :=
      ⟨fuel - 1 - A.length, by rw [length_append, length_cons] at hfuel; omega⟩
    rw [flatMap_append, flatMap_cons, append_assoc, append_assoc, stored_append, stored_append] at hst
    rw [flatMap_append, flatMap_cons, length_append, length_append] at hsize
    have hname := beforeEquals_entryString (hL e (by simp))
    have hlen : (entryString e).bytes.length = e.1.bytes.length + 1 + e.2.bytes.length := by
      simp only [entryString, length_append, length_cons]
      omega
    have hlen' := length_storedEntry e
    rw [hskip A (fun d hd => hL d (by simp [hd])) hA (fuel + 1) hst.1 (by omega),
      fwSearch_found ⟨equals_mem_entryString e, hname.trans he⟩ (by rw [storedString_entryString]; exact hst.2.1) (by omega),
      hname, hlen]
  · intro hno
    obtain ⟨fuel, rfl⟩ : ∃ f, fuel = f + 1 + L.length := ⟨fuel - 1 - L.length, by omega⟩
    rw [hskip L hL hno (fuel + 1) (stored_append.1 hst).1 (by omega), fwSearch, if_pos (stored_cons.1 (stored_append.1 hst).2).1]

/-- The scan over a whole block that names each variable once: at the entry of the name, if there is one. -/
theorem fwSearch_block (envSize : Nat) (name : CString)
    (hL : ∀ e ∈ L, chEquals ∉ e.1.bytes) (hnd : (L.map Prod.fst).Nodup)
    (hst : Stored envGetChar 0 (L.flatMap storedEntry ++ [0])) (hsize : (L.flatMap storedEntry).length ≤ envSize) :
    (∀ v, (name.beforeEquals, v) ∈ L → ∃ env nxt val, Stored envGetChar val (v.bytes ++ [0]) ∧
      fwSearch envGetChar envSize name (envSize + 2) 0 = some (.found env nxt val)) ∧
    ((∀ v, (name.beforeEquals, v) ∉ L) → fwSearch envGetChar envSize name (envSize + 2) 0 = some .absent) := by
  have hle := length_le_flatMap_storedEntry L
  obtain ⟨hfound, habsent⟩ := fwSearch_entries envSize name L hL (envSize + 2) 0 (by omega) hst (by omega)
  refine ⟨?_, fun hno => habsent ?_⟩
  · intro v hv
    obtain ⟨A, B, rfl⟩ := append_of_mem hv
    have hA : name.beforeEquals ∉ A.map Prod.fst := by
      rw [map_append, map_cons, nodup_append] at hnd
      exact fun hmem => hnd.2.2 _ hmem _ mem_cons_self rfl
    refine ⟨_, _, _, ?_, hfound A _ B rfl hA rfl⟩
    rw [flatMap_append, flatMap_cons, append_assoc, append_assoc, stored_append, storedEntry,
      append_assoc, stored_append, cons_append, stored_cons, stored_append] at hst
    exact hst.2.2.2.1
  · intro h
    obtain ⟨⟨k, v⟩, hkv, hk⟩ := mem_map.1 h
    exact hno v (by rw [← hk]; exact hkv)

end StoredEnvAux
end UBoot

import UBoot.Hwconfig

/-!
# The search of hwconfig

`hwconfig_parse` as a search character by character: what it finds in a name or a value. A search that meets a false hit goes on right
behind it, and takes what is there for the start of the string, so it accepts a text that ends with the option twice.
-/

namespace UBoot

open List

/-- A text that ends with an option twice, where a search that goes on behind each hit meets it. -/
inductive Stutters (opt : List UInt8) : List UInt8 → Prop where
  | twice : Stutters opt (opt ++ opt)
  | behind {s : List UInt8} : Stutters opt s → Stutters opt (opt ++ s)
  | skip {c : UInt8} {s : List UInt8} : ¬opt <+: c :: s → Stutters opt s → Stutters opt (c :: s)

namespace HwconfigAux

/-! ## The search, character by character -/

/-- `end` is at a character that ends a name, or at the end of the string. -/
def endsName (stopchs : List UInt8) (eqch : UInt8) (rest : List UInt8) : Bool := rest.head?.all fun c => c ∈ stopchs || c = eqch

/-- The search, where `left` says whether an option at this place would be taken: what stands behind the hit. -/
def scan (opt stopchs : List UInt8) (eqch : UInt8) (left : Bool) : List UInt8 → Option (List UInt8)
  | [] => none
  | c :: s =>
    if opt <+: c :: s then
      if left ∧ endsName stopchs eqch (s.drop (opt.length - 1)) then some (s.drop (opt.length - 1))
      else scan opt stopchs eqch true (s.drop (opt.length - 1))
    else scan opt stopchs eqch (c ∈ stopchs) s
  termination_by s => s.length

section

variable {opt stopchs tail : List UInt8} {eqch : UInt8}
variable {s : List UInt8} {c : UInt8}

theorem strpbrk_eq_zero_iff {cs ct : List UInt8} : strpbrk cs ct = some 0 ↔ ∃ c ∈ cs.head?, c ∈ ct := by
  cases cs with
  | nil => simp [strpbrk]
  | cons c cs => simp [strpbrk, findIdx?_cons]

/-- No hit reaches into the text behind a character that no option has. -/
theorem isPrefix_append_iff (htail : ∀ c ∈ tail.head?, c ∉ opt) : opt <+: s ++ tail ↔ opt <+: s := by
  constructor
  · intro h
    by_cases hlen : opt.length ≤ s.length
    · exact prefix_of_prefix_length_le h (prefix_append s tail) hlen
    · exfalso
      cases tail with
      | nil =>
        have := h.length_le
        simp at this
        omega
      | cons c tail =>
        obtain ⟨r, hr⟩ := h
        have hget : opt[s.length]? = some c := by
          have hr' := congrArg (·[s.length]?) hr
          simpa [getElem?_append_left (show s.length < opt.length by omega)] using hr'
        exact htail c rfl (mem_of_getElem? hget)
  · exact fun h => h.trans (prefix_append s tail)

/-- The search and its first hit: it is behind the text, or it is taken, or the search goes on behind it. -/
theorem scan_strstr (stopchs : List UInt8) (eqch : UInt8) (hopt : opt ≠ []) (htail : ∀ c ∈ tail.head?, c ∉ opt) (left : Bool) (s : List UInt8) :
    (strstrAt (s ++ tail) opt = none ∧ scan opt stopchs eqch left s = none) ∨
    ∃ i, strstrAt (s ++ tail) opt = some i ∧ ((s.length < i + opt.length ∧ scan opt stopchs eqch left s = none) ∨
        (i + opt.length ≤ s.length ∧ opt <+: s.drop i ∧ scan opt stopchs eqch left s =
          if ((i = 0 ∧ left = true) ∨ (0 < i ∧ ∃ c ∈ s[i - 1]?, c ∈ stopchs)) ∧ endsName stopchs eqch (s.drop (i + opt.length)) then
            some (s.drop (i + opt.length))
          else scan opt stopchs eqch true (s.drop (i + opt.length)))) := by
  have hpos : 0 < opt.length := length_pos_iff.2 hopt
  induction s generalizing left with
  | nil =>
    have hscan : scan opt stopchs eqch left [] = none := by rw [scan]
    cases h : strstrAt ([] ++ tail) opt with
    | none => exact Or.inl ⟨rfl, hscan⟩
    | some i => exact Or.inr ⟨i, rfl, Or.inl ⟨by rw [length_nil]; omega, hscan⟩⟩
  | cons c s ih =>
    rw [cons_append, strstrAt, ← cons_append]
    by_cases hpre : opt <+: c :: s
    · rw [if_pos ((isPrefix_append_iff htail).2 hpre)]
      have hdrop : (c :: s).drop (0 + opt.length) = s.drop (opt.length - 1) := by
        obtain ⟨n, hn⟩ := Nat.exists_eq_add_one.2 hpos
        rw [hn, Nat.zero_add, drop_succ_cons, Nat.succ_sub_one]
      refine Or.inr ⟨0, rfl, Or.inr ⟨by rw [Nat.zero_add]; exact hpre.length_le, hpre, ?_⟩⟩
      rw [scan, if_pos hpre, hdrop]
      simp only [true_and, Nat.lt_irrefl, false_and, or_false]
    · rw [if_neg (mt (isPrefix_append_iff htail).1 hpre), scan, if_neg hpre]
      rcases ih (decide (c ∈ stopchs)) with ⟨hnone, hscan⟩ | ⟨i, hsome, h⟩
      · exact Or.inl ⟨by rw [hnone]; rfl, hscan⟩
      · refine Or.inr ⟨i + 1, by rw [hsome]; rfl, ?_⟩
        rcases h with ⟨hlen, hscan⟩ | ⟨hlen, hpre', hscan⟩
        · exact Or.inl ⟨by rw [length_cons]; omega, hscan⟩
        · refine Or.inr ⟨by rw [length_cons]; omega, hpre', ?_⟩
          have hadd : i + 1 + opt.length = i + opt.length + 1 := by omega
          rw [hscan, hadd, drop_succ_cons]
          cases i with
          | zero => simp
          | succ i => simp

/-- What is returned for a hit, from what stands behind it. -/
def hitArg (opt stopchs : List UInt8) (eqch : UInt8) (T : List UInt8) (arglen : Bool) (rest : List UInt8) : Option (Nat × Nat) :=
  if arglen = false then some (T.length - rest.length - opt.length, 0)
  else if rest.head? = some eqch then some (T.length - rest.length + 1, (rest.takeWhile (· ∉ stopchs)).length - 1)
  else none

theorem strpbrk_append {as bs ct : List UInt8} (has : ∀ c ∈ as, c ∉ ct) : strpbrk (as ++ bs) ct = (strpbrk bs ct).map (as.length + ·) := by
  induction as with
  | nil =>
    cases h : strpbrk bs ct <;> simp [h]
  | cons a as ih =>
    have ha := has a (mem_cons_self ..)
    have ih := ih fun c hc => has c (mem_cons_of_mem _ hc)
    rw [strpbrk] at ih ⊢
    rw [cons_append, findIdx?_cons, if_neg (by simpa using ha), ih, strpbrk, Option.map_map]
    congr 1
    funext j
    simp only [Function.comp_apply, length_cons]
    omega

/-- The end of an argument: a stop character, or the end of the string. -/
theorem strpbrk_arg (hstop : ∀ c ∈ opt, c ∉ stopchs) (rest : List UInt8) (htail : ∀ c ∈ tail.head?, c ∈ stopchs) :
    strpbrk (opt ++ rest ++ tail) stopchs = some (opt.length + (rest.takeWhile (· ∉ stopchs)).length) ∨
      (strpbrk (opt ++ rest ++ tail) stopchs = none ∧ tail = [] ∧ (rest.takeWhile (· ∉ stopchs)).length = rest.length) := by
  have hsplit := takeWhile_append_dropWhile (p := fun c => decide (c ∉ stopchs)) (l := rest)
  have hfree : ∀ c ∈ opt ++ rest.takeWhile (· ∉ stopchs), c ∉ stopchs := by
    intro c hc
    rcases mem_append.1 hc with hc | hc
    · exact hstop c hc
    · simpa using mem_takeWhile_imp hc
  have htext : opt ++ rest ++ tail = (opt ++ rest.takeWhile (· ∉ stopchs)) ++ (rest.dropWhile (· ∉ stopchs) ++ tail) := by
    rw [← append_assoc, append_assoc opt (rest.takeWhile _), hsplit]
  rw [htext, strpbrk_append hfree, length_append]
  have hhead : ∀ c ∈ (rest.dropWhile (· ∉ stopchs) ++ tail).head?, c ∈ stopchs := by
    intro c hc
    have hdrop := head?_dropWhile_not (fun c => decide (c ∉ stopchs)) rest
    cases h : rest.dropWhile (· ∉ stopchs) with
    | nil =>
      rw [h] at hc
      exact htail c hc
    | cons d ds =>
      rw [h] at hdrop hc
      obtain rfl : d = c := by simpa using hc
      simpa using hdrop
  cases hend : rest.dropWhile (· ∉ stopchs) ++ tail with
  | nil =>
    obtain ⟨hnil, htail⟩ := append_eq_nil_iff.1 hend
    rw [hnil, append_nil] at hsplit
    exact Or.inr ⟨rfl, htail, by rw [hsplit]⟩
  | cons d ds =>
    have hzero : strpbrk (d :: ds) stopchs = some 0 := strpbrk_eq_zero_iff.2 ⟨d, rfl, hhead d (by rw [hend]; rfl)⟩
    rw [hzero]
    exact Or.inl rfl

theorem endsName_iff (htail : ∀ c ∈ tail.head?, c ∈ stopchs) (rest : List UInt8) :
    (strpbrk (rest ++ tail) stopchs = some 0 ∨ (rest ++ tail).head? = some eqch ∨ (rest ++ tail).head? = none) ↔
      endsName stopchs eqch rest = true := by
  rw [strpbrk_eq_zero_iff]
  cases rest with
  | nil =>
    refine iff_of_true ?_ rfl
    cases tail with
    | nil => exact Or.inr (Or.inr rfl)
    | cons c tail => exact Or.inl ⟨c, rfl, htail c rfl⟩
  | cons c rest => simp [endsName]

/-- The loop is the search, up to the end of the text that it is given. -/
theorem hwconfigNext_eq (hopt : opt ≠ []) (hstop : ∀ c ∈ opt, c ∉ stopchs) (heq : eqch ∉ stopchs)
    (T : List UInt8) (htail : ∀ c ∈ tail.head?, c ∈ stopchs) (arglen : Bool) (rounds p : Nat) (hp : p ≤ T.length)
    (hrounds : T.length - p < rounds) :
    hwconfigNext (T ++ tail) T.length opt stopchs eqch arglen rounds p =
      some ((scan opt stopchs eqch true (T.drop p)).bind (hitArg opt stopchs eqch T arglen)) := by
  have htail' : ∀ c ∈ tail.head?, c ∉ opt := fun c hc hmem => hstop c hmem (htail c hc)
  have hpos : 0 < opt.length := length_pos_iff.2 hopt
  induction rounds generalizing p with
  | zero => omega
  | succ rounds ih =>
    rw [hwconfigNext, drop_append_of_le_length hp]
    rcases scan_strstr stopchs eqch hopt htail' true (T.drop p) with
      ⟨hnone, hscan⟩ | ⟨i, hsome, ⟨hlen, hscan⟩ | ⟨hlen, hpre, hscan⟩⟩
    · rw [hnone, hscan]
      rfl
    · rw [hsome, hscan]
      rw [length_drop] at hlen
      dsimp only
      rw [if_pos (by omega)]
      rfl
    · rw [hsome, hscan]
      rw [length_drop] at hlen
      have hfin : p + i + opt.length ≤ T.length := by omega
      rw [drop_drop] at hpre
      rw [drop_drop, ← Nat.add_assoc]
      obtain ⟨rest, hrest⟩ : ∃ rest, rest = T.drop (p + i + opt.length) := ⟨_, rfl⟩
      have hstr : T.drop (p + i) = opt ++ rest := by
        rw [hrest, ← drop_drop (i := opt.length) (j := p + i)]
        exact (prefix_iff_eq_append.1 hpre).symm
      have hlenrest : T.length - rest.length = p + i + opt.length := by
        rw [hrest, length_drop]
        omega
      have hbehind : (T ++ tail).drop (p + i + opt.length) = rest ++ tail := by rw [drop_append_of_le_length hfin, hrest]
      have hget : (T ++ tail)[p + i + opt.length]? = (rest ++ tail).head? := by rw [← hbehind, head?_drop]
      have hleft : (p + i = p ∨ strpbrk ((T ++ tail).drop (p + i - 1)) stopchs = some 0) ↔
          ((i = 0 ∧ true = true) ∨ (0 < i ∧ ∃ c ∈ (T.drop p)[i - 1]?, c ∈ stopchs)) := by
        rcases Nat.eq_zero_or_pos i with rfl | hi
        · exact iff_of_true (Or.inl rfl) (Or.inl ⟨rfl, rfl⟩)
        · rw [strpbrk_eq_zero_iff, head?_drop, getElem?_append_left (by omega), getElem?_drop]
          have hsub : p + (i - 1) = p + i - 1 := by omega
          rw [hsub]
          constructor
          · rintro (h | h)
            · omega
            · exact Or.inr ⟨hi, h⟩
          · rintro (h | h)
            · omega
            · exact Or.inr h.2
      dsimp only
      rw [if_neg (by omega), hbehind, hget, ← hrest]
      simp only [hleft, endsName_iff htail]
      split
      next =>
        rw [Option.bind_some, hitArg, hlenrest]
        cases arglen with
        | false => simp
        | true =>
          have hhead : (rest ++ tail).head? = some eqch ↔ rest.head? = some eqch := by
            cases rest with
            | nil => exact iff_of_false (fun h => heq (htail eqch h)) (fun h => nomatch h)
            | cons c rest => exact Iff.rfl
          have hdrop : (T ++ tail).drop (p + i) = opt ++ rest ++ tail := by rw [drop_append_of_le_length (by omega), hstr]
          simp only [Bool.true_eq_false, if_false]
          by_cases hc : rest.head? = some eqch
          · rw [if_neg (not_not.2 (hhead.2 hc)), if_pos hc, hdrop]
            rcases strpbrk_arg hstop rest htail with h | ⟨h, rfl, hall⟩
            · rw [h]
              have hsub : p + i + (opt.length + (rest.takeWhile (· ∉ stopchs)).length) - (p + i + opt.length) - 1 =
                  (rest.takeWhile (· ∉ stopchs)).length - 1 := by omega
              simp only [hsub]
            · rw [h]
              have hrlen : rest.length = T.length - (p + i + opt.length) := by rw [hrest, length_drop]
              have hsub : min T.length ((T ++ []).length - (p + i)) - opt.length - 1 = (rest.takeWhile (· ∉ stopchs)).length - 1 := by
                rw [hall, append_nil, hrlen]
                omega
              simp only [hsub]
          · rw [if_pos (mt hhead.1 hc), if_neg hc]
      next =>
        rw [ih _ hfin (by omega), hrest]

/-! ## A name, and a value -/

theorem stutters_append_iff (hopt : opt ≠ []) : Stutters opt (opt ++ s) ↔ s = opt ∨ Stutters opt s := by
  constructor
  · intro h
    generalize hw : opt ++ s = w at h
    cases h with
    | twice => exact Or.inl (append_cancel_left hw)
    | behind h => exact Or.inr (append_cancel_left hw ▸ h)
    | skip hno => exact absurd (hw ▸ prefix_append opt s) hno
  · rintro (rfl | h)
    · exact Stutters.twice
    · exact Stutters.behind h

theorem stutters_cons_iff (hno : ¬opt <+: c :: s) : Stutters opt (c :: s) ↔ Stutters opt s := by
  constructor
  · intro h
    generalize hw : c :: s = w at h
    cases h with
    | twice => exact absurd (hw ▸ prefix_append opt opt) hno
    | behind => exact absurd (hw ▸ prefix_append opt _) hno
    | skip _ h =>
      obtain ⟨-, rfl⟩ := List.cons.inj hw
      exact h
  · exact Stutters.skip hno

theorem not_stutters_nil (hopt : opt ≠ []) : ¬Stutters opt [] := by
  intro h
  generalize hw : ([] : List UInt8) = w at h
  induction h with
  | twice => exact hopt (append_eq_nil_iff.1 hw.symm).1
  | behind => exact hopt (append_eq_nil_iff.1 hw.symm).1
  | skip => cases hw

theorem scan_delimiter (hopt : opt ≠ []) (hc : c ∉ opt) (left : Bool) (B : List UInt8) :
    scan opt stopchs eqch left (c :: B) = scan opt stopchs eqch (c ∈ stopchs) B := by
  rw [scan, if_neg]
  intro h
  obtain ⟨d, ds, rfl⟩ := exists_cons_of_ne_nil hopt
  obtain ⟨r, hr⟩ := h
  exact hc ((List.cons.inj hr).1 ▸ mem_cons_self ..)

/-- The search through a name or a value. -/
theorem scan_block (hopt : opt ≠ []) {B : List UInt8} (hB : ∀ c ∈ B.head?, c ∉ opt ∧ (c ∈ stopchs ∨ c = eqch)) (w : List UInt8)
    (hw : ∀ c ∈ w, c ∉ stopchs ∧ c ≠ eqch) (left : Bool) :
    (((left = true ∧ w = opt) ∨ Stutters opt w) ∧ scan opt stopchs eqch left (w ++ B) = some B) ∨
      ¬((left = true ∧ w = opt) ∨ Stutters opt w) ∧ scan opt stopchs eqch left (w ++ B) = scan opt stopchs eqch true B := by
  induction hlen : w.length using Nat.strongRecOn generalizing w left with
  | ind n ih =>
    cases w with
    | nil =>
      refine Or.inr ⟨?_, ?_⟩
      · rintro (⟨-, h⟩ | h)
        · exact hopt h.symm
        · exact not_stutters_nil hopt h
      · cases B with
        | nil => simp [scan]
        | cons c B => rw [nil_append, scan_delimiter hopt (hB c rfl).1, scan_delimiter hopt (hB c rfl).1]
    | cons c s =>
      have hs : ∀ c ∈ s, c ∉ stopchs ∧ c ≠ eqch := fun d hd => hw d (mem_cons_of_mem _ hd)
      by_cases hpre : opt <+: c :: s
      · obtain ⟨rest, hrest⟩ := hpre
        have hdrop : (s ++ B).drop (opt.length - 1) = rest ++ B := by
          obtain ⟨d, ds, rfl⟩ := exists_cons_of_ne_nil hopt
          obtain ⟨-, rfl⟩ := List.cons.inj hrest
          simp
        have hrestlen : rest.length < n := by
          have := congrArg List.length hrest
          have := length_pos_iff.2 hopt
          rw [length_append] at *
          omega
        have hrestw : ∀ c ∈ rest, c ∉ stopchs ∧ c ≠ eqch := fun d hd => hw d (hrest ▸ mem_append_right _ hd)
        have hpreB : opt <+: c :: (s ++ B) := by
          rw [← cons_append, ← hrest, append_assoc]
          exact prefix_append ..
        rw [cons_append, scan, if_pos hpreB, hdrop, ← hrest, stutters_append_iff hopt]
        have hends : endsName stopchs eqch (rest ++ B) = true ↔ rest = [] := by
          cases rest with
          | nil =>
            refine iff_of_true ?_ rfl
            cases B with
            | nil => rfl
            | cons d B => simpa [endsName] using (hB d rfl).2
          | cons d rest =>
            have hd := hrestw d (mem_cons_self ..)
            simp [endsName, hd.1, hd.2]
        have hself : opt ++ rest = opt ↔ rest = [] := append_right_eq_self
        simp only [hends, hself]
        by_cases hhit : left = true ∧ rest = []
        · rw [if_pos hhit, hhit.2]
          exact Or.inl ⟨Or.inl ⟨hhit.1, rfl⟩, rfl⟩
        · rw [if_neg hhit]
          rcases ih rest.length hrestlen rest hrestw true rfl with ⟨h, hscan⟩ | ⟨h, hscan⟩
          · exact Or.inl ⟨Or.inr (h.imp_left And.right), hscan⟩
          · refine Or.inr ⟨?_, hscan⟩
            rintro (h' | h' | h')
            · exact hhit h'
            · exact h (Or.inl ⟨rfl, h'⟩)
            · exact h (Or.inr h')
      · have hpreB : ¬opt <+: c :: (s ++ B) := by
          rw [← cons_append]
          exact mt (isPrefix_append_iff fun d hd => (hB d hd).1).1 hpre
        have hc : decide (c ∈ stopchs) = false := decide_eq_false (hw c (mem_cons_self ..)).1
        have hne : c :: s ≠ opt := fun h => hpre (h ▸ prefix_refl _)
        rw [cons_append, scan, if_neg hpreB, hc, stutters_cons_iff hpre]
        have hlt : s.length < n := by
          rw [← hlen, length_cons]
          exact Nat.lt_succ_self _
        rcases ih s.length hlt s hs false rfl with ⟨h, hscan⟩ | ⟨h, hscan⟩
        · exact Or.inl ⟨Or.inr (h.resolve_left fun h => Bool.false_ne_true h.1), hscan⟩
        · refine Or.inr ⟨?_, hscan⟩
          rintro (h' | h')
          · exact hne h'.2
          · exact h (Or.inr h')

end

end HwconfigAux

end UBoot

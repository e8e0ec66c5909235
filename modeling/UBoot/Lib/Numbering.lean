import Mathlib

/-!
# Numbering by wishes

Things wish for numbers below a bound, one wish after the other, and a wish is granted if neither its number nor its thing was given away
before. The things without a granted wish get the lowest numbers that are left, in their order. There is at most one such numbering
(`Numbering.unique`); `Numbering.map_iff` says when it stays the same if numbers out of range are replaced by others.
-/

namespace Lib

open List

variable {α : Type*} [LinearOrder α] {xs : List α} {max : Nat} {wishes : List (Nat × α)} {place place' : Nat → Option α}

/-- A wish is granted, when some others were. -/
def Grants (xs : List α) (max : Nat) (taken : List (Nat × α)) (wish : Nat × α) : Prop :=
  wish.1 < max ∧ wish.2 ∈ xs ∧ ∀ t ∈ taken, t.1 ≠ wish.1 ∧ t.2 ≠ wish.2

instance (xs : List α) (max : Nat) (taken : List (Nat × α)) (wish : Nat × α) : Decidable (Grants xs max taken wish) :=
  inferInstanceAs (Decidable (_ ∧ _ ∧ _))

/-- The wishes granted after one more. -/
def grant (xs : List α) (max : Nat) (taken : List (Nat × α)) (wish : Nat × α) : List (Nat × α) :=
  if Grants xs max taken wish then wish :: taken else taken

def granted (xs : List α) (max : Nat) (wishes : List (Nat × α)) : List (Nat × α) := wishes.foldl (grant xs max) []

/-- A numbering of things: a thing whose wish is granted has its number, and the others the lowest ones left, in order. -/
structure Numbering (xs : List α) (max : Nat) (wishes : List (Nat × α)) (place : Nat → Option α) : Prop where
  once : ∀ x ∈ xs, ∃ i < max, place i = some x
  inj : ∀ {i j x}, i < max → j < max → place i = some x → place j = some x → i = j
  only : ∀ {i x}, i < max → place i = some x → x ∈ xs
  taken : ∀ t ∈ granted xs max wishes, place t.1 = some t.2
  order : ∀ {i j x y}, i < max → j < max → place i = some x → place j = some y → (i, x) ∉ granted xs max wishes →
    (j, y) ∉ granted xs max wishes → x < y → i < j
  lowest : ∀ {i j x}, i < j → j < max → place i = none → place j = some x → (j, x) ∈ granted xs max wishes

/-! ## Wishes that are granted -/

theorem granted_concat (wish : Nat × α) : granted xs max (wishes ++ [wish]) = grant xs max (granted xs max wishes) wish := by
  rw [granted, foldl_append]
  rfl

theorem subset_grant (taken : List (Nat × α)) (wish : Nat × α) : taken ⊆ grant xs max taken wish := by
  unfold grant
  split
  · exact subset_cons_self wish taken
  · exact List.Subset.refl taken

theorem granted_subset_append (wishes more : List (Nat × α)) : granted xs max wishes ⊆ granted xs max (wishes ++ more) := by
  induction more generalizing wishes with
  | nil => rw [append_nil]; exact List.Subset.refl _
  | cons wish more ih =>
    rw [append_cons]
    refine List.Subset.trans ?_ (ih _)
    rw [granted_concat]
    exact subset_grant _ _

theorem mem_grant_iff {taken : List (Nat × α)} {wish t : Nat × α} :
    t ∈ grant xs max taken wish ↔ t ∈ taken ∨ Grants xs max taken wish ∧ t = wish := by
  unfold grant
  split
  next h => simp [h, or_comm]
  next h => simp [h]

/-- What is granted is a wish for a number in range, and for a thing to be numbered. -/
theorem granted_sound {t : Nat × α} (h : t ∈ granted xs max wishes) : t ∈ wishes ∧ t.1 < max ∧ t.2 ∈ xs := by
  induction wishes using List.reverseRecOn with
  | nil => exact absurd h not_mem_nil
  | append_singleton wishes wish ih =>
    rw [granted_concat, mem_grant_iff] at h
    rcases h with h | ⟨hgrants, rfl⟩
    · exact ⟨mem_append_left _ (ih h).1, (ih h).2⟩
    · exact ⟨mem_append_right _ (mem_singleton_self _), hgrants.1, hgrants.2.1⟩

/-- No number and no thing is given away twice. -/
theorem granted_inj {s t : Nat × α} (hs : s ∈ granted xs max wishes) (ht : t ∈ granted xs max wishes) (h : s.1 = t.1 ∨ s.2 = t.2) : s = t := by
  induction wishes using List.reverseRecOn with
  | nil => exact absurd hs not_mem_nil
  | append_singleton wishes wish ih =>
    rw [granted_concat, mem_grant_iff] at hs ht
    rcases hs with hs | ⟨hgrants, rfl⟩
    · rcases ht with ht | ⟨hgrants, rfl⟩
      · exact ih hs ht
      · have := hgrants.2.2 s hs
        exact absurd h (not_or.mpr this)
    · rcases ht with ht | ⟨-, rfl⟩
      · have := hgrants.2.2 t ht
        exact absurd h (not_or.mpr ⟨Ne.symm this.1, Ne.symm this.2⟩)
      · rfl

/-! ## One numbering -/

/-- Two numberings that agree below a number agree at it if one of them gives it to nothing. -/
theorem Numbering.none_of_none (h : Numbering xs max wishes place) (h' : Numbering xs max wishes place') {i : Nat} (hi : i < max)
    (hbelow : ∀ j < i, place j = place' j) (hnone : place i = none) : place' i = none := by
  by_contra hsome
  obtain ⟨x, hx⟩ := Option.ne_none_iff_exists'.mp hsome
  obtain ⟨j, hj, hjx⟩ := h.once x (h'.only hi hx)
  have hji : j ≠ i := fun he => by rw [he, hnone] at hjx; cases hjx
  rcases Nat.lt_or_gt_of_ne hji with hlt | hgt
  · -- In the other numbering the thing then has two numbers.
    exact hji (h'.inj hj hi ((hbelow j hlt) ▸ hjx) hx)
  · have hgranted := h.lowest hgt hj hnone hjx
    exact hji (h'.inj hj hi (h'.taken _ hgranted) hx)

/-- The thing at a number is the same where two numberings agree below it. -/
theorem Numbering.not_before (h : Numbering xs max wishes place) (h' : Numbering xs max wishes place') {i : Nat} (hi : i < max)
    (hbelow : ∀ j < i, place j = place' j) {x y : α} (hx : place i = some x) (hy : place' i = some y) : ¬x < y := by
  intro hlt
  obtain ⟨j, hj, hjx⟩ := h'.once x (h.only hi hx)
  -- A granted wish for the number has the same thing in both.
  have hfree (z : α) : (i, z) ∉ granted xs max wishes := fun hz => by
    have hxz : some x = some z := hx.symm.trans (h.taken _ hz)
    have hyz : some y = some z := hy.symm.trans (h'.taken _ hz)
    exact absurd (Option.some.inj (hxz.trans hyz.symm)) (ne_of_lt hlt)
  have hjfree : (j, x) ∉ granted xs max wishes := fun hz => by
    have := h.inj hj hi (h.taken _ hz) hx
    exact hfree x (this ▸ hz)
  have hji := h'.order hj hi hjx hy hjfree (hfree y) hlt
  exact absurd (h.inj hj hi ((hbelow j hji).trans hjx) hx) (Nat.ne_of_lt hji)

/-- There is at most one numbering, by strong induction on the number. -/
theorem Numbering.unique (h : Numbering xs max wishes place) (h' : Numbering xs max wishes place') {i : Nat} (hi : i < max) :
    place i = place' i := by
  induction i using Nat.strongRecOn with
  | ind i ih =>
    have hbelow (j : Nat) (hj : j < i) : place j = place' j := ih j hj (Nat.lt_trans hj hi)
    have hbelow' (j : Nat) (hj : j < i) : place' j = place j := (hbelow j hj).symm
    cases hx : place i with
    | none => exact (h.none_of_none h' hi hbelow hx).symm
    | some x =>
      cases hy : place' i with
      | none => exact absurd (h'.none_of_none h hi hbelow' hy) (by rw [hx]; exact Option.some_ne_none x)
      | some y =>
        have hxy := not_lt.mp (h.not_before h' hi hbelow hx hy)
        have hyx := not_lt.mp (h'.not_before h hi hbelow' hy hx)
        exact congrArg some (le_antisymm hyx hxy)

theorem Numbering.congr (h : Numbering xs max wishes place) (heq : ∀ i < max, place i = place' i) : Numbering xs max wishes place' where
  once := fun x hx => by
    obtain ⟨i, hi, hix⟩ := h.once x hx
    exact ⟨i, hi, heq i hi ▸ hix⟩
  inj := fun hi hj hix hjx => h.inj hi hj ((heq _ hi).trans hix) ((heq _ hj).trans hjx)
  only := fun hi hix => h.only hi ((heq _ hi).trans hix)
  taken := fun t ht => heq _ (granted_sound ht).2.1 ▸ h.taken t ht
  order := fun hi hj hix hjy => h.order hi hj ((heq _ hi).trans hix) ((heq _ hj).trans hjy)
  lowest := fun hij hj hi hjx => h.lowest hij hj ((heq _ (Nat.lt_trans hij hj)).trans hi) ((heq _ hj).trans hjx)

/-! ## Other numbers -/

variable {f : Nat → Nat}

/-- The wishes with their numbers replaced. -/
def mapWishes (f : Nat → Nat) (wishes : List (Nat × α)) : List (Nat × α) := wishes.map fun wish => (f wish.1, wish.2)

/-- A wish for a number out of range that gets into it does no harm: it, or a wish before it, has the number or the thing, as a numbering has
it. -/
def Harmless (xs : List α) (max : Nat) (f : Nat → Nat) (wishes : List (Nat × α)) (place : Nat → Option α) : Prop :=
  ∀ before wish after, wishes = before ++ wish :: after → max ≤ wish.1 → f wish.1 < max → wish.2 ∈ xs →
    ∃ w ∈ before ++ [wish], f w.1 < max ∧ place (f w.1) = some w.2 ∧ (f w.1 = f wish.1 ∨ w.2 = wish.2)

theorem granted_map_concat (wishes : List (Nat × α)) (wish : Nat × α) :
    granted xs max (mapWishes f (wishes ++ [wish])) = grant xs max (granted xs max (mapWishes f wishes)) (f wish.1, wish.2) := by
  rw [mapWishes, map_append]
  exact granted_concat _

/-- A wish for a number in range that is not granted wishes for what is given away. -/
theorem exists_of_not_grants {taken : List (Nat × α)} {wish : Nat × α} (h : ¬Grants xs max taken wish) (hlt : wish.1 < max)
    (hmem : wish.2 ∈ xs) : ∃ t ∈ taken, t.1 = wish.1 ∨ t.2 = wish.2 := by
  by_contra hnone
  push Not at hnone
  exact h ⟨hlt, hmem, hnone⟩

/-- With other numbers out of range that do no harm, the granted wishes are those for the places of the numbering: by induction on the wishes
that were looked at. -/
theorem Numbering.mem_granted_map (h : Numbering xs max wishes place) (hf : ∀ n < max, f n = n) (hharm : Harmless xs max f wishes place)
    {before : List (Nat × α)} (hbefore : before <+: wishes) {t : Nat × α} :
    t ∈ granted xs max (mapWishes f before) ↔ t ∈ mapWishes f before ∧ t.1 < max ∧ place t.1 = some t.2 := by
  induction before using List.reverseRecOn generalizing t with
  | nil => exact iff_of_false not_mem_nil fun ht => absurd ht.1 not_mem_nil
  | append_singleton before wish ih =>
    obtain ⟨after, hafter⟩ := hbefore
    have ih' {t : Nat × α} := ih (t := t) ⟨[wish] ++ after, by rw [← hafter, append_assoc]⟩
    rw [granted_map_concat, mem_grant_iff, ih']
    have hmem : t ∈ mapWishes f (before ++ [wish]) ↔ t ∈ mapWishes f before ∨ t = (f wish.1, wish.2) := by simp [mapWishes]
    rw [hmem]
    constructor
    · rintro (⟨ht, hplace⟩ | ⟨hgrants, rfl⟩)
      · exact ⟨Or.inl ht, hplace⟩
      · refine ⟨Or.inr rfl, hgrants.1, ?_⟩
        rcases Nat.lt_or_ge wish.1 max with hlt | hge
        · -- The wish is granted with the numbers as they are, too.
          have hwish : Grants xs max (granted xs max before) wish := by
            refine ⟨hlt, hgrants.2.1, fun t ht => ?_⟩
            have hsound := granted_sound ht
            have htaken : t ∈ granted xs max wishes := by
              rw [← hafter, append_assoc]
              exact granted_subset_append _ _ ht
            have hmap : t ∈ mapWishes f before := mem_map.mpr ⟨t, hsound.1, by rw [hf t.1 hsound.2.1]⟩
            have hne := hgrants.2.2 t (ih'.mpr ⟨hmap, hsound.2.1, h.taken t htaken⟩)
            rwa [hf wish.1 hlt] at hne
          have htaken : wish ∈ granted xs max wishes := by
            rw [← hafter]
            refine granted_subset_append _ _ ?_
            rw [granted_concat, mem_grant_iff]
            exact Or.inr ⟨hwish, rfl⟩
          rw [hf wish.1 hlt]
          exact h.taken wish htaken
        · obtain ⟨w, hw, hlt, hplace, heq⟩ := hharm before wish after (by rw [← hafter, append_assoc]; rfl) hge hgrants.1 hgrants.2.1
          rcases mem_append.mp hw with hw | hw
          · have hne := hgrants.2.2 _ (ih'.mpr ⟨mem_map.mpr ⟨w, hw, rfl⟩, hlt, hplace⟩)
            exact absurd heq (not_or.mpr hne)
          · rw [mem_singleton.mp hw] at hplace
            exact hplace
    · rintro ⟨ht | rfl, hlt, hplace⟩
      · exact Or.inl ⟨ht, hlt, hplace⟩
      · by_cases hgrants : Grants xs max (granted xs max (mapWishes f before)) (f wish.1, wish.2)
        · exact Or.inr ⟨hgrants, rfl⟩
        · obtain ⟨s, hs, heq⟩ := exists_of_not_grants hgrants hlt (h.only hlt hplace)
          obtain ⟨hmap, hslt, hsplace⟩ := ih'.mp hs
          have hst : s = (f wish.1, wish.2) := by
            rcases heq with heq | heq
            · rw [heq, hplace] at hsplace
              exact Prod.ext heq (Option.some.inj hsplace).symm
            · exact Prod.ext (h.inj hslt hlt hsplace (heq ▸ hplace)) heq
          exact Or.inl ⟨hst ▸ hmap, hlt, hplace⟩

/-- A numbering stays one with other numbers out of range that do no harm. -/
theorem Numbering.map (h : Numbering xs max wishes place) (hf : ∀ n < max, f n = n) (hharm : Harmless xs max f wishes place) :
    Numbering xs max (mapWishes f wishes) place := by
  have hgranted {t : Nat × α} (ht : t ∈ granted xs max wishes) : t ∈ granted xs max (mapWishes f wishes) := by
    have hsound := granted_sound ht
    exact (h.mem_granted_map hf hharm (prefix_refl _)).mpr ⟨mem_map.mpr ⟨t, hsound.1, by rw [hf t.1 hsound.2.1]⟩, hsound.2.1, h.taken t ht⟩
  exact {
    once := h.once
    inj := h.inj
    only := h.only
    taken := fun t ht => ((h.mem_granted_map hf hharm (prefix_refl _)).mp ht).2.2
    order := fun hi hj hx hy hxt hyt => h.order hi hj hx hy (mt hgranted hxt) (mt hgranted hyt)
    lowest := fun hij hj hi hx => hgranted (h.lowest hij hj hi hx) }

/-- In a numbering for other numbers these do no harm. -/
theorem Numbering.harmless (h : Numbering xs max (mapWishes f wishes) place) : Harmless xs max f wishes place := by
  rintro before wish after rfl - hlt hmem
  have hplace {t : Nat × α} (ht : t ∈ granted xs max (mapWishes f (before ++ [wish]))) : t.1 < max ∧ place t.1 = some t.2 := by
    refine ⟨(granted_sound ht).2.1, h.taken t ?_⟩
    rw [append_cons, mapWishes, map_append]
    exact granted_subset_append _ _ ht
  rw [granted_map_concat] at hplace
  by_cases hgrants : Grants xs max (granted xs max (mapWishes f before)) (f wish.1, wish.2)
  · have := hplace (mem_grant_iff.mpr (Or.inr ⟨hgrants, rfl⟩))
    exact ⟨wish, mem_append_right _ (mem_singleton_self _), this.1, this.2, Or.inl rfl⟩
  · obtain ⟨s, hs, heq⟩ := exists_of_not_grants hgrants hlt hmem
    obtain ⟨w, hw, rfl⟩ := mem_map.mp (granted_sound hs).1
    have := hplace (mem_grant_iff.mpr (Or.inl hs))
    exact ⟨w, mem_append_left _ hw, this.1, this.2, heq⟩

/-- A numbering for other numbers is one for the numbers themselves just if these do no harm in one. -/
theorem Numbering.map_iff (h : Numbering xs max (mapWishes f wishes) place) (hf : ∀ n < max, f n = n) :
    Numbering xs max wishes place ↔ ∃ place', Numbering xs max wishes place' ∧ Harmless xs max f wishes place' := by
  constructor
  · exact fun h' => ⟨place, h', h.harmless⟩
  · rintro ⟨place', h', hharm⟩
    exact h'.congr fun i hi => (h'.map hf hharm).unique h hi

end Lib

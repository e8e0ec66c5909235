import UBoot.Defrag
import UBoot.Lib.Links

/-!
# The hole list

The descriptors in the buffer as a function of their index, what the writes of the code do to it, and the list of holes it holds.
-/

namespace UBoot

open Lib

namespace DefragAux

variable {buf buf' : Nat → UInt8} {a b i j h newh v : Nat}
variable {k : Nat} {is : List Nat}

/-! ## Descriptors -/

theorem get16_congr (h0 : buf' a = buf b) (h1 : buf' (a + 1) = buf (b + 1)) : get16 buf' a = get16 buf b := by
  rw [get16, get16, h0, h1]

theorem get16_put16_self (buf : Nat → UInt8) (a v : Nat) : get16 (put16 buf a v) a = v % 2 ^ 16 := by
  have hs := stored_store buf a [UInt8.ofNat v, UInt8.ofNat (v / 256)]
  have h0 : put16 buf a v a = UInt8.ofNat v := hs 0 _ rfl
  have h1 : put16 buf a v (a + 1) = UInt8.ofNat (v / 256) := hs 1 _ rfl
  rw [get16, h0, h1, UInt8.toNat_ofNat', UInt8.toNat_ofNat']
  omega

theorem put16_of_outside (hb : b < a ∨ a + 2 ≤ b) : put16 buf a v b = buf b := store_of_outside hb

theorem get16_put16_of_disjoint (hb : b + 2 ≤ a ∨ a + 2 ≤ b) : get16 (put16 buf a v) b = get16 buf b :=
  get16_congr (put16_of_outside (by omega)) (put16_of_outside (by omega))

/-- The field at `k` of the descriptors, after it was written in one of them. -/
theorem get16_field_self : get16 (put16 buf (holeAddr i + k) v) (holeAddr j + k) = if j = i then v % 65536 else get16 buf (holeAddr j + k) := by
  split
  · subst j
    exact get16_put16_self buf _ v
  · refine get16_put16_of_disjoint ?_
    unfold holeAddr
    omega

theorem get16_field_of_ne {m : Nat} (hne : k + 2 ≤ m ∧ m + 2 ≤ 8 ∨ m + 2 ≤ k ∧ k + 2 ≤ 8) :
    get16 (put16 buf (holeAddr i + m) v) (holeAddr j + k) = get16 buf (holeAddr j + k) := by
  refine get16_put16_of_disjoint ?_
  unfold holeAddr
  omega

@[simp] theorem lastByte_setLastByte (buf : Nat → UInt8) (i v j : Nat) :
    (holeAt (setLastByte buf i v) j).lastByte = if j = i then v % 65536 else (holeAt buf j).lastByte :=
  get16_field_self (k := 0)

@[simp] theorem nextHole_setLastByte (buf : Nat → UInt8) (i v j : Nat) : (holeAt (setLastByte buf i v) j).nextHole = (holeAt buf j).nextHole :=
  get16_field_of_ne (k := 2) (m := 0) (by decide)

@[simp] theorem prevHole_setLastByte (buf : Nat → UInt8) (i v j : Nat) : (holeAt (setLastByte buf i v) j).prevHole = (holeAt buf j).prevHole :=
  get16_field_of_ne (k := 4) (m := 0) (by decide)

@[simp] theorem lastByte_setNextHole (buf : Nat → UInt8) (i v j : Nat) : (holeAt (setNextHole buf i v) j).lastByte = (holeAt buf j).lastByte :=
  get16_field_of_ne (k := 0) (m := 2) (by decide)

@[simp] theorem nextHole_setNextHole (buf : Nat → UInt8) (i v j : Nat) :
    (holeAt (setNextHole buf i v) j).nextHole = if j = i then v % 65536 else (holeAt buf j).nextHole :=
  get16_field_self (k := 2)

@[simp] theorem prevHole_setNextHole (buf : Nat → UInt8) (i v j : Nat) : (holeAt (setNextHole buf i v) j).prevHole = (holeAt buf j).prevHole :=
  get16_field_of_ne (k := 4) (m := 2) (by decide)

@[simp] theorem lastByte_setPrevHole (buf : Nat → UInt8) (i v j : Nat) : (holeAt (setPrevHole buf i v) j).lastByte = (holeAt buf j).lastByte :=
  get16_field_of_ne (k := 0) (m := 4) (by decide)

@[simp] theorem nextHole_setPrevHole (buf : Nat → UInt8) (i v j : Nat) : (holeAt (setPrevHole buf i v) j).nextHole = (holeAt buf j).nextHole :=
  get16_field_of_ne (k := 2) (m := 4) (by decide)

@[simp] theorem prevHole_setPrevHole (buf : Nat → UInt8) (i v j : Nat) :
    (holeAt (setPrevHole buf i v) j).prevHole = if j = i then v % 65536 else (holeAt buf j).prevHole :=
  get16_field_self (k := 4)

/-- The buffers are the same outside the descriptors at `is`. -/
def SameOff (is : List Nat) (buf buf' : Nat → UInt8) : Prop :=
  ∀ a, (∀ i ∈ is, a < holeAddr i ∨ holeAddr i + 8 ≤ a) → buf' a = buf a

theorem SameOff.refl (is : List Nat) (buf : Nat → UInt8) : SameOff is buf buf := fun _ _ => rfl

theorem SameOff.trans {buf₁ buf₂ buf₃ : Nat → UInt8} (h : SameOff is buf₁ buf₂) (h' : SameOff is buf₂ buf₃) :
    SameOff is buf₁ buf₃ := fun a ha => (h' a ha).trans (h a ha)

theorem SameOff.mono {js : List Nat} (h : SameOff is buf buf') (hsub : ∀ i ∈ is, i ∈ js) : SameOff js buf buf' :=
  fun a ha => h a fun i hi => ha i (hsub i hi)

theorem sameOff_put16 (hk : k + 2 ≤ 8) (hi : i ∈ is) : SameOff is buf (put16 buf (holeAddr i + k) v) := by
  intro a ha
  have := ha i hi
  exact put16_of_outside (by omega)

theorem sameOff_setLastByte (hi : i ∈ is) : SameOff is buf (setLastByte buf i v) :=
  sameOff_put16 (k := 0) (by decide) hi

theorem sameOff_setNextHole (hi : i ∈ is) : SameOff is buf (setNextHole buf i v) :=
  sameOff_put16 (k := 2) (by decide) hi

theorem sameOff_setPrevHole (hi : i ∈ is) : SameOff is buf (setPrevHole buf i v) :=
  sameOff_put16 (k := 4) (by decide) hi

theorem sameOff_copyHole (hi : newh ∈ is) : SameOff is buf (copyHole buf h newh) := by
  intro a ha
  exact store_of_outside (by simpa using ha newh hi)

theorem holeAt_congr (hb : ∀ k < 8, buf' (holeAddr i + k) = buf (holeAddr j + k)) : holeAt buf' i = holeAt buf j := by
  have h16 : ∀ k < 7, get16 buf' (holeAddr i + k) = get16 buf (holeAddr j + k) := fun k hk =>
    get16_congr (hb k (by omega)) (hb (k + 1) (by omega))
  have h0 : get16 buf' (holeAddr i) = get16 buf (holeAddr j) := h16 0 (by omega)
  rw [holeAt, holeAt, h0, h16 2 (by omega), h16 4 (by omega)]

theorem holeAt_store {xs : List UInt8} (hd : holeAddr i + 8 ≤ a ∨ a + xs.length ≤ holeAddr i) : holeAt (store buf a xs) i = holeAt buf i :=
  holeAt_congr fun k hk => store_of_outside (by omega)

theorem holeAt_copyHole (buf : Nat → UInt8) (h newh j : Nat) :
    holeAt (copyHole buf h newh) j = if j = newh then holeAt buf h else holeAt buf j := by
  split
  · subst j
    refine holeAt_congr ?_
    intro k hk
    refine stored_store buf (holeAddr newh) _ k _ ?_
    rw [List.getElem?_map, List.getElem?_range hk, Option.map_some]
  · refine holeAt_store ?_
    simp only [List.length_map, List.length_range]
    unfold holeAddr
    omega

/-! ## The branches of the code -/

theorem access_eq {α : Type} (hi : inBuff i = true) (x : α) : access i x = some x := if_pos hi

theorem inBuff_mod (hi : inBuff i = true) : i % 65536 = i := by
  have := of_decide_eq_true hi
  unfold holeAddr IP_PKTSIZE at this
  exact Nat.mod_eq_of_lt (by omega)

/-- What the links, ends and other bytes of the buffer `buf'` are, in terms of those of `buf`. -/
structure Relinked (buf buf' : Nat → UInt8) (touched : List Nat) (lb nx pv : Nat → Nat) : Prop where
  last : ∀ i, (holeAt buf' i).lastByte = lb i
  next : ∀ i, (holeAt buf' i).nextHole = nx i
  prev : ∀ i, (holeAt buf' i).prevHole = pv i
  same : SameOff touched buf buf'

section

variable {s : Defrag} {touched : List Nat}
variable {d : Hole}

theorem Relinked.seg {lb nx pv : Nat → Nat} (hr : Relinked buf buf' touched lb nx pv) {p n : Nat} {is : List Nat}
    (h : Seg nx pv p is n) : Seg (fun i => (holeAt buf' i).nextHole) (fun i => (holeAt buf' i).prevHole) p is n := by
  rw [funext hr.next, funext hr.prev]
  exact h

theorem removeHole_spec (hone : ¬(d.prevHole = 0 ∧ d.nextHole = 0))
    (hp : d.prevHole ≠ 0 → inBuff d.prevHole = true ∧ d.prevHole ∈ touched)
    (hn : d.nextHole ≠ 0 → inBuff d.nextHole = true ∧ d.nextHole ∈ touched) :
    ∃ buf', s.removeHole d = some ({ s with buf := buf', firstHole := if d.prevHole = 0 then d.nextHole else s.firstHole }, false) ∧
      Relinked s.buf buf' touched (fun i => (holeAt s.buf i).lastByte)
        (fun i => if d.prevHole ≠ 0 ∧ i = d.prevHole then d.nextHole else (holeAt s.buf i).nextHole)
        (fun i => if d.nextHole ≠ 0 ∧ i = d.nextHole then d.prevHole else (holeAt s.buf i).prevHole) := by
  unfold Defrag.removeHole
  rw [if_neg hone]
  by_cases hp0 : d.prevHole = 0
  · have hn0 : d.nextHole ≠ 0 := fun h => hone ⟨hp0, h⟩
    obtain ⟨hin, htn⟩ := hn hn0
    refine ⟨setPrevHole s.buf d.nextHole 0, ?_, ?_, ?_, ?_, sameOff_setPrevHole htn⟩
    · simp [hp0, access_eq hin]
    · simp
    · simp [hp0]
    · simp [hp0, hn0]
  · obtain ⟨hip, htp⟩ := hp hp0
    have hpl := inBuff_mod hip
    by_cases hn0 : d.nextHole = 0
    · refine ⟨setNextHole s.buf d.prevHole 0, ?_, ?_, ?_, ?_, sameOff_setNextHole htp⟩
      · simp [hp0, hn0, access_eq hip]
      · simp
      · simp [hp0, hn0]
      · simp [hn0]
    · obtain ⟨hin, htn⟩ := hn hn0
      have hnl := inBuff_mod hin
      refine ⟨setNextHole (setPrevHole s.buf d.nextHole d.prevHole) d.prevHole d.nextHole, ?_, ?_, ?_, ?_,
        (sameOff_setPrevHole htn).trans (sameOff_setNextHole htp)⟩
      · simp [hp0, hn0, access_eq hip, access_eq hin]
      · simp
      · simp [hp0, hnl]
      · simp [hn0, hpl]

theorem linkBack_spec {n : Nat} (hn : n ≠ 0 → inBuff n = true ∧ n ∈ touched) (hv : inBuff v = true) (buf : Nat → UInt8) :
    ∃ buf', linkBack buf n v = some buf' ∧ Relinked buf buf' touched (fun i => (holeAt buf i).lastByte) (fun i => (holeAt buf i).nextHole)
        (fun i => if n ≠ 0 ∧ i = n then v else (holeAt buf i).prevHole) := by
  by_cases h0 : n = 0
  · exact ⟨buf, by rw [linkBack, if_neg (not_not.2 h0)], by simp, by simp, by simp [h0], SameOff.refl _ _⟩
  · obtain ⟨hi, ht⟩ := hn h0
    refine ⟨setPrevHole buf n v, by rw [linkBack, if_pos h0, access_eq hi], by simp, by simp, ?_, sameOff_setPrevHole ht⟩
    simp [h0, inBuff_mod hv]

theorem moveHole_spec (hd : holeAt s.buf h = d) (hnew : inBuff newh = true) (htnew : newh ∈ touched)
    (hp : d.prevHole ≠ 0 → inBuff d.prevHole = true ∧ d.prevHole ∈ touched)
    (hn : d.nextHole ≠ 0 → inBuff d.nextHole = true ∧ d.nextHole ∈ touched) (hne : d.nextHole ≠ newh) :
    ∃ buf', s.moveHole h newh = some { s with buf := buf', firstHole := if d.prevHole = 0 then newh else s.firstHole } ∧
      Relinked s.buf buf' touched (fun i => if i = newh then d.lastByte else (holeAt s.buf i).lastByte)
        (fun i => if d.prevHole ≠ 0 ∧ i = d.prevHole then newh
          else if i = newh then d.nextHole else (holeAt s.buf i).nextHole)
        (fun i => if d.nextHole ≠ 0 ∧ i = d.nextHole then newh
          else if i = newh then d.prevHole else (holeAt s.buf i).prevHole) := by
  have hcopy : ∀ i, holeAt (copyHole s.buf h newh) i = if i = newh then d else holeAt s.buf i := fun i => by
    rw [holeAt_copyHole, hd]
  obtain ⟨buf₁, hb₁, hr₁⟩ := linkBack_spec hn hnew (copyHole s.buf h newh)
  have hprev : (holeAt buf₁ newh).prevHole = d.prevHole := by
    rw [hr₁.prev, if_neg (fun h => hne h.2.symm), hcopy, if_pos rfl]
  have hsame : SameOff touched s.buf buf₁ := (sameOff_copyHole htnew).trans hr₁.same
  have hlast : ∀ i, (holeAt buf₁ i).lastByte = if i = newh then d.lastByte else (holeAt s.buf i).lastByte := fun i => by
    rw [hr₁.last, hcopy, apply_ite Hole.lastByte]
  have hnext : ∀ i, (holeAt buf₁ i).nextHole = if i = newh then d.nextHole else (holeAt s.buf i).nextHole := fun i => by
    rw [hr₁.next, hcopy, apply_ite Hole.nextHole]
  have hprev₁ : ∀ i, (holeAt buf₁ i).prevHole = if d.nextHole ≠ 0 ∧ i = d.nextHole then newh
      else if i = newh then d.prevHole else (holeAt s.buf i).prevHole := fun i => by
    rw [hr₁.prev, hcopy, apply_ite Hole.prevHole]
  have hmove : s.moveHole h newh = if d.prevHole ≠ 0 then
        (access d.prevHole (setNextHole buf₁ d.prevHole newh)).bind fun buf => some { s with buf := buf }
      else some { s with buf := buf₁, firstHole := newh } := by
    unfold Defrag.moveHole
    simp only [access_eq hnew, Option.bind_eq_bind, Option.bind_some, hcopy, if_true, hb₁, hprev]
  by_cases hp0 : d.prevHole = 0
  · refine ⟨buf₁, ?_, hlast, ?_, hprev₁, hsame⟩
    · rw [hmove, if_neg (not_not.2 hp0), if_pos hp0]
    · intro i
      rw [hnext, if_neg (not_and_of_not_left _ (not_not.2 hp0))]
  · obtain ⟨hip, htp⟩ := hp hp0
    refine ⟨setNextHole buf₁ d.prevHole newh, ?_, ?_, ?_, ?_, hsame.trans (sameOff_setNextHole htp)⟩
    · rw [hmove, if_pos hp0, access_eq hip, if_neg hp0]
      rfl
    · simpa using hlast
    · intro i
      simp only [nextHole_setNextHole, inBuff_mod hnew, hnext, hp0, ne_eq, not_false_eq_true, true_and]
    · simpa using hprev₁

theorem splitHole_spec {start : Nat} (hd : holeAt s.buf h = d) (hin : inBuff h = true) (hth : h ∈ touched)
    (hnew : inBuff newh = true) (htnew : newh ∈ touched) (hhn : h ≠ newh) (hstart : start < 65536)
    (hn : d.nextHole ≠ 0 → inBuff d.nextHole = true ∧ d.nextHole ∈ touched) :
    ∃ buf', s.splitHole h newh start = some { s with buf := buf' } ∧ Relinked s.buf buf' touched
        (fun i => if i = h then start else if i = newh then d.lastByte else (holeAt s.buf i).lastByte)
        (fun i => if i = h then newh else if i = newh then d.nextHole else (holeAt s.buf i).nextHole)
        (fun i => if d.nextHole ≠ 0 ∧ i = d.nextHole then newh
          else if i = newh then h else (holeAt s.buf i).prevHole) := by
  have hcopy : ∀ i, holeAt (copyHole s.buf h newh) i = if i = newh then d else holeAt s.buf i := fun i => by
    rw [holeAt_copyHole, hd]
  obtain ⟨buf₁, hb₁⟩ : ∃ buf₁, buf₁ = setPrevHole (setNextHole (setLastByte (copyHole s.buf h newh) h start) h newh) newh h := ⟨_, rfl⟩
  have hsame : SameOff touched s.buf buf₁ := by
    rw [hb₁]
    exact (((sameOff_copyHole htnew).trans (sameOff_setLastByte hth)).trans (sameOff_setNextHole hth)).trans (sameOff_setPrevHole htnew)
  have hlast : ∀ i, (holeAt buf₁ i).lastByte =
      if i = h then start else if i = newh then d.lastByte else (holeAt s.buf i).lastByte := fun i => by
    simp only [hb₁, lastByte_setPrevHole, lastByte_setNextHole, lastByte_setLastByte, Nat.mod_eq_of_lt hstart, hcopy, apply_ite Hole.lastByte]
  have hnext : ∀ i, (holeAt buf₁ i).nextHole =
      if i = h then newh else if i = newh then d.nextHole else (holeAt s.buf i).nextHole := fun i => by
    simp only [hb₁, nextHole_setPrevHole, nextHole_setNextHole, nextHole_setLastByte, inBuff_mod hnew, hcopy, apply_ite Hole.nextHole]
  have hprev : ∀ i, (holeAt buf₁ i).prevHole = if i = newh then h else (holeAt s.buf i).prevHole := fun i => by
    simp only [hb₁, prevHole_setPrevHole, prevHole_setNextHole, prevHole_setLastByte, inBuff_mod hin, hcopy, apply_ite Hole.prevHole]
    split <;> rfl
  have hnew₁ : (holeAt buf₁ newh).nextHole = d.nextHole := by
    rw [hnext, if_neg hhn.symm, if_pos rfl]
  obtain ⟨buf₂, hb₂, hr₂⟩ := linkBack_spec hn hnew buf₁
  refine ⟨buf₂, ?_, ?_, ?_, ?_, hsame.trans hr₂.same⟩
  · unfold Defrag.splitHole
    simp only [access_eq hnew, Option.bind_eq_bind, Option.bind_some, ← hb₁, hnew₁, hb₂]
  · intro i
    rw [hr₂.last, hlast]
  · intro i
    rw [hr₂.next, hnext]
  · intro i
    rw [hr₂.prev, hprev]

end

end DefragAux

end UBoot

import Mathlib.Data.List.Nodup
import UBoot.Mtdparts

/-!
# Lemmas on the partition table

The list of partitions under an insertion and a deletion, the number of the current partition beside it, and the list of devices
when one of them is changed in its place.
-/

namespace UBoot

open List Option

/-- A device of the list: its partitions are sorted by offset, counted, and told apart by their addresses. -/
structure MtdDevice.WF (dev : MtdDevice) : Prop where
  sorted : dev.parts.Pairwise fun p q => p.offset ≤ q.offset
  count : dev.numParts = dev.parts.length
  nonempty : dev.parts ≠ []
  distinct : (dev.parts.map PartInfo.addr).Nodup
  small : dev.numParts < 2 ^ 16

namespace MtdAux

variable {mtds : Nat → Nat → Option MtdInfo}
variable {id : MtdId} {q : PartInfo} {parts : List PartInfo} {r : List PartInfo × Option PartInfo} {c : Nat}

/-! ## Validation -/

/-- What is valid: a partition on its flash, without overflow, that begins and ends with a block. -/
theorem partValidate_eq_some_iff : partValidate mtds id part = some q ↔ (fillSize id part).offset ≤ id.size ∧
    (fillSize id part).offset < add32 (fillSize id part).offset (fillSize id part).size ∧
    add32 (fillSize id part).offset (fillSize id part).size ≤ id.size ∧
    ∃ mtd, mtds id.type id.num = some mtd ∧ eraseblockOk mtd (fillSize id part).offset (fillSize id part).size = true ∧
      q = { fillSize id part with sectorSize := mtd.erasesize } := by
  unfold partValidate partValidateEraseblock
  generalize fillSize id part = p
  simp only [bind_eq_bind]
  constructor
  · intro h
    split at h
    · cases h
    split at h
    · cases h
    split at h
    · cases h
    rename_i h₁ h₂ h₃
    obtain ⟨mtd, hmtd, h⟩ := bind_eq_some_iff.1 h
    split at h
    · rename_i hok
      exact ⟨Nat.le_of_not_lt h₁, Nat.lt_of_not_le h₂, Nat.le_of_not_lt h₃, mtd, hmtd, hok, (some.inj h).symm⟩
    · cases h
  · rintro ⟨h₁, h₂, h₃, mtd, hmtd, hok, rfl⟩
    rw [if_neg (Nat.not_lt.2 h₁), if_neg (Nat.not_le.2 h₂), if_neg (Nat.not_lt.2 h₃), hmtd]
    simp only [bind_some, hok, if_true]

theorem partValidate_addr (h : partValidate mtds id part = some q) : q.addr = part.addr := by
  obtain ⟨-, -, -, mtd, -, -, rfl⟩ := partValidate_eq_some_iff.1 h
  show (fillSize id part).addr = part.addr
  unfold fillSize
  split <;> rfl

/-! ## Inserting and deleting a partition -/

/-- A partition is put behind those with smaller offsets and before one whose offset is not smaller. -/
theorem sortAddLoop_spec (h : sortAddLoop part parts = some r) : ∃ l₁ l₂, parts = l₁ ++ l₂ ∧ r = (l₁ ++ part :: l₂, l₂.head?) ∧
      (∀ x ∈ l₁, x.offset < part.offset) ∧ ∀ x ∈ l₂.head?, part.offset ≤ x.offset := by
  induction parts generalizing r with
  | nil =>
    obtain rfl := some.inj h
    exact ⟨[], [], rfl, rfl, by simp, by simp⟩
  | cons pi rest ih =>
    rw [sortAddLoop] at h
    split at h
    · cases h
    · split at h
      · rename_i hle
        obtain rfl := some.inj h
        exact ⟨[], pi :: rest, rfl, rfl, by simp, by simpa using hle⟩
      · rename_i hle
        obtain ⟨r', hr', rfl⟩ := map_eq_some_iff.1 h
        obtain ⟨l₁, l₂, rfl, rfl, h₁, h₂⟩ := ih hr'
        refine ⟨pi :: l₁, l₂, rfl, rfl, ?_, h₂⟩
        intro x hx
        rcases mem_cons.1 hx with rfl | hx
        · exact Nat.lt_of_not_le hle
        · exact h₁ x hx

variable {l₁ l₂ : List PartInfo} {part : PartInfo}

/-- What is sorted stays sorted with a partition at such a place. -/
theorem pairwise_insert (hs : (l₁ ++ l₂).Pairwise fun p q => p.offset ≤ q.offset) (h₁ : ∀ x ∈ l₁, x.offset < part.offset)
    (h₂ : ∀ x ∈ l₂.head?, part.offset ≤ x.offset) : (l₁ ++ part :: l₂).Pairwise fun p q => p.offset ≤ q.offset := by
  obtain ⟨hs₁, hs₂, h₁₂⟩ := pairwise_append.1 hs
  have hpart : ∀ x ∈ l₂, part.offset ≤ x.offset := by
    cases l₂ with
    | nil => simp
    | cons y ys =>
      have hy : part.offset ≤ y.offset := h₂ y rfl
      intro x hx
      rcases mem_cons.1 hx with rfl | hx
      · exact hy
      · exact hy.trans ((pairwise_cons.1 hs₂).1 x hx)
  refine pairwise_append.2 ⟨hs₁, pairwise_cons.2 ⟨hpart, hs₂⟩, ?_⟩
  intro x hx y hy
  rcases mem_cons.1 hy with rfl | hy
  · exact Nat.le_of_lt (h₁ x hx)
  · exact h₁₂ x hx y hy

theorem getElem?_insert_left (hc : c < l₁.length) : (l₁ ++ part :: l₂)[c]? = (l₁ ++ l₂)[c]? := by
  rw [getElem?_append_left hc, getElem?_append_left hc]

theorem getElem?_insert_right (hc : l₁.length ≤ c) : (l₁ ++ part :: l₂)[c + 1]? = (l₁ ++ l₂)[c]? := by
  rw [getElem?_append_right (Nat.le_succ_of_le hc), getElem?_append_right hc, Nat.succ_sub hc, getElem?_cons_succ]

theorem offset_le_of_lt (hs : parts.Pairwise fun p q => p.offset ≤ q.offset) {i j : Nat}
    (hij : i < j) {p : PartInfo} (hp : parts[i]? = some p) (hq : parts[j]? = some q) : p.offset ≤ q.offset := by
  obtain ⟨hi, rfl⟩ := List.getElem?_eq_some_iff.1 hp
  obtain ⟨hj, rfl⟩ := List.getElem?_eq_some_iff.1 hq
  exact pairwise_iff_getElem.1 hs i j hi hj hij

/-- The number of the current partition after an insertion: it is raised exactly if the place is not behind it. -/
theorem sortAdd_shift (hs : (l₁ ++ l₂).Pairwise fun p q => p.offset ≤ q.offset) (h₁ : ∀ x ∈ l₁, x.offset < part.offset)
    (h₂ : ∀ x ∈ l₂.head?, part.offset ≤ x.offset) {curr : PartInfo} (hc : (l₁ ++ l₂)[c]? = some curr) :
    (∃ pi, l₂.head? = some pi ∧ pi.offset ≤ curr.offset) ↔ l₁.length ≤ c := by
  constructor
  · rintro ⟨pi, hpi, hle⟩
    by_contra hlt
    rw [getElem?_append_left (Nat.lt_of_not_le hlt)] at hc
    have hcurr := h₁ curr (mem_of_getElem? hc)
    have hpart := h₂ pi hpi
    omega
  · intro hle
    rw [getElem?_append_right hle] at hc
    cases l₂ with
    | nil => simp at hc
    | cons pi rest =>
      refine ⟨pi, rfl, ?_⟩
      rcases Nat.eq_or_lt_of_le hle with rfl | hlt
      · simp only [Nat.sub_self, getElem?_cons_zero, some.injEq] at hc
        rw [hc]
      · refine offset_le_of_lt (pairwise_append.1 hs).2.1 (Nat.sub_pos_of_lt hlt) rfl hc

/-- A partition with an address of its own splits the list it is deleted from. -/
theorem filter_addr_split (hd : (parts.map PartInfo.addr).Nodup) {j : Nat}
    (hj : parts[j]? = some part) : ∃ l₁ l₂, parts = l₁ ++ part :: l₂ ∧ l₁.length = j ∧ parts.filter (·.addr ≠ part.addr) = l₁ ++ l₂ := by
  obtain ⟨hlt, hpart⟩ := List.getElem?_eq_some_iff.1 hj
  have hsplit : parts = parts.take j ++ part :: parts.drop (j + 1) := by
    rw [← hpart, ← drop_eq_getElem_cons hlt, take_append_drop]
  refine ⟨parts.take j, parts.drop (j + 1), hsplit, by rw [length_take, Nat.min_eq_left (Nat.le_of_lt hlt)], ?_⟩
  generalize parts.take j = l₁ at hsplit ⊢
  generalize parts.drop (j + 1) = l₂ at hsplit ⊢
  subst hsplit
  have hnot : ∀ x ∈ l₁ ++ l₂, x.addr ≠ part.addr := by
    rw [map_append, map_cons, nodup_middle, nodup_cons, ← map_append] at hd
    exact fun x hx he => hd.1 (mem_map.2 ⟨x, hx, he⟩)
  have hkeep (l : List PartInfo) (hl : ∀ x ∈ l, x.addr ≠ part.addr) : l.filter (·.addr ≠ part.addr) = l := by
    rw [filter_eq_self]
    intro x hx
    simpa using hl x hx
  rw [filter_append, filter_cons_of_neg (by simp), hkeep l₁ fun x hx => hnot x (mem_append_left _ hx),
    hkeep l₂ fun x hx => hnot x (mem_append_right _ hx)]

/-! ## The list of devices -/

variable {s : MtdState} {dev : MtdDevice} {a : Nat}

theorem mem_of_device (h : s.device a = some dev) : dev ∈ s.devices ∧ dev.addr = a :=
  ⟨mem_of_find?_eq_some h, by simpa using find?_some h⟩

theorem device_of_mem (hd : (s.devices.map MtdDevice.addr).Nodup) (h : dev ∈ s.devices) : s.device dev.addr = some dev := by
  rw [MtdState.device, find?_eq_some_iff_getElem]
  obtain ⟨i, hi, rfl⟩ := getElem_of_mem h
  refine ⟨by simp, i, hi, rfl, ?_⟩
  intro j hj
  have hne := pairwise_iff_getElem.1 hd j i (by simpa using hj.trans hi) (by simpa using hi) hj
  simpa using hne

theorem map_addr_setDevice (s : MtdState) (dev : MtdDevice) : (s.setDevice dev).devices.map MtdDevice.addr = s.devices.map MtdDevice.addr := by
  rw [MtdState.setDevice, List.map_map]
  apply List.map_congr_left
  intro d _
  rw [Function.comp_apply]
  split
  · rename_i he
    exact he.symm
  · rfl

theorem mem_setDevice {d : MtdDevice} (h : d ∈ (s.setDevice dev).devices) : d = dev ∨ d ∈ s.devices := by
  obtain ⟨e, he, rfl⟩ := mem_map.1 h
  split
  · exact Or.inl rfl
  · exact Or.inr he

theorem device_setDevice_self {old : MtdDevice} (h : s.device dev.addr = some old) : (s.setDevice dev).device dev.addr = some dev := by
  have hmem := mem_of_device h
  rw [MtdState.device, MtdState.setDevice, find?_map]
  have hcomp : ((fun d : MtdDevice => decide (d.addr = dev.addr)) ∘ fun d => if d.addr = dev.addr then dev else d) =
      fun d => decide (d.addr = dev.addr) := by
    funext d
    rw [Function.comp_apply]
    split <;> simp_all
  rw [MtdState.device] at h
  rw [hcomp, h, map_some, if_pos hmem.2]

theorem device_setDevice_other (ha : a ≠ dev.addr) : (s.setDevice dev).device a = s.device a := by
  rw [MtdState.device, MtdState.setDevice, find?_map]
  have hcomp : ((fun d : MtdDevice => decide (d.addr = a)) ∘ fun d => if d.addr = dev.addr then dev else d) = fun d => decide (d.addr = a) := by
    funext d
    rw [Function.comp_apply]
    split
    · rename_i he
      simp [he]
    · rfl
  rw [hcomp, MtdState.device]
  cases hf : s.devices.find? (fun d => decide (d.addr = a)) with
  | none => rfl
  | some d =>
    have hda : d.addr = a := by simpa using find?_some hf
    rw [map_some, if_neg (hda ▸ ha)]

theorem device_filter_other {devices : List MtdDevice} {b : Nat} (ha : a ≠ b) :
    (devices.filter (·.addr ≠ b)).find? (·.addr = a) = devices.find? (·.addr = a) := by
  induction devices with
  | nil => rfl
  | cons d devices ih =>
    by_cases hb : d.addr = b
    · have hne : ¬d.addr = a := fun h => ha (h.symm.trans hb)
      rw [filter_cons_of_neg (by simpa using hb), ih, find?_cons_of_neg (by simpa using hne)]
    · rw [filter_cons_of_pos (by simpa using hb)]
      by_cases hda : d.addr = a
      · rw [find?_cons_of_pos (by simpa using hda), find?_cons_of_pos (by simpa using hda)]
      · rw [find?_cons_of_neg (by simpa using hda), find?_cons_of_neg (by simpa using hda), ih]

end MtdAux
end UBoot

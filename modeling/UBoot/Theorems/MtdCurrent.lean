import UBoot.Lemmas.MtdAux
import UBoot.Lib.Exec

/-!
# The current partition follows the edits of the table

The number of the current partition has 8 bits, and is lowered by each deletion at an offset that is not above that of the partition.
-/

namespace UBoot

open Lib MtdAux List Option

/-- A call on the list of devices. A device and a partition are named by their addresses. -/
inductive MtdOp where
  | partAdd (dev : Nat) (part : PartInfo)
  | partDel (dev part : Nat)
  | deviceAdd (dev : MtdDevice)
  | deviceDel (dev : Nat)

/-- The state after a call. -/
def mtdStep (mtds : Nat → Nat → Option MtdInfo) (s : MtdState) : MtdOp → MtdState
  | .partAdd a part => ((s.device a).map fun dev => (s.partAdd mtds dev part).2).getD s
  | .partDel a p => ((s.device a).bind fun dev => (dev.parts.find? (·.addr = p)).map fun part => s.partDel dev part).getD s
  | .deviceAdd dev => s.deviceAdd dev
  | .deviceDel a => ((s.device a).map fun dev => s.deviceDel dev).getD s

/-- What the callers see to: a device is on the list, a partition to be deleted is on its device, and what is added is newly
allocated, a device with the partitions `device_parse` gave it. -/
def Proper (s : MtdState) : MtdOp → Prop
  | .partAdd a part => ∃ dev, s.device a = some dev ∧ part.addr ∉ dev.parts.map PartInfo.addr
  | .partDel a p => ∃ dev, s.device a = some dev ∧ p ∈ dev.parts.map PartInfo.addr
  | .deviceAdd dev => dev.addr ∉ s.devices.map MtdDevice.addr ∧ dev.WF
  | .deviceDel a => ∃ dev, s.device a = some dev

/-- The condition on a call. A partition that is valid, and not a second one at offset 0, is added to a device with fewer than
65535, while the number of the current partition is below 255 or its offset is below that of the new one. When a partition is
deleted, the current one is not before it at the same offset. -/
def Followable (mtds : Nat → Nat → Option MtdInfo) (s : MtdState) : MtdOp → Prop
  | .partAdd a part => ∀ dev q, s.device a = some dev → partValidate mtds dev.id part = some q →
      (q.offset = 0 → ∀ x ∈ dev.parts, x.offset ≠ 0) → dev.numParts + 1 < 2 ^ 16 ∧
        (s.currentMtdPartnum + 1 < 2 ^ 8 ∨ ∀ curr, s.currPi dev = some curr → curr.offset < q.offset)
  | .partDel a p => ∀ dev curr j part, s.device a = some dev → s.currPi dev = some curr → s.currentMtdPartnum < j →
      dev.parts[j]? = some part → part.addr = p → curr.offset ≠ part.offset
  | _ => True

/-- The devices are well formed, and the current partition is one of them if there is any. -/
structure MtdState.Good (s : MtdState) : Prop where
  devices_wf : ∀ d ∈ s.devices, d.WF
  distinct : (s.devices.map MtdDevice.addr).Nodup
  current : s.devices ≠ [] → ∃ d ∈ s.devices, s.currentMtdDev = some d.addr ∧ s.currentMtdPartnum < d.numParts
  small : s.currentMtdPartnum < 2 ^ 8

/-- The partition that the current device and number designate. -/
def MtdState.designated (s : MtdState) : Option (Nat × Nat) := do
  let a ← s.currentMtdDev
  let dev ← s.device a
  let part ← mtdPartInfo dev s.currentMtdPartnum
  some (a, part.addr)

/-- Partition 0 of a device. -/
def MtdDevice.first (dev : MtdDevice) : Option (Nat × Nat) := dev.parts.head?.map fun p => (dev.addr, p.addr)

/-- What has to be designated after a call that led to `s'`, if it was partition `p` of device `d` before. -/
def follow (s' : MtdState) (d p : Nat) : MtdOp → Option (Nat × Nat)
  | .partDel a q =>
    if a = d ∧ q = p then ((s'.device d).or s'.devices.head?).bind MtdDevice.first else some (d, p)
  | .deviceDel a => if a = d then s'.devices.head?.bind MtdDevice.first else some (d, p)
  | _ => some (d, p)

/-- A call leaves a good state that designates what it has to. -/
def Follows (mtds : Nat → Nat → Option MtdInfo) (s : MtdState) (op : MtdOp) : Prop :=
  (mtdStep mtds s op).Good ∧ ∀ d p, s.designated = some (d, p) → (mtdStep mtds s op).designated = follow (mtdStep mtds s op) d p op

namespace MtdAux

variable {mtds : Nat → Nat → Option MtdInfo} {s : MtdState} {dev : MtdDevice}

theorem designated_eq_some_iff {d p : Nat} : s.designated = some (d, p) ↔
    ∃ dev part, s.currentMtdDev = some d ∧ s.device d = some dev ∧ mtdPartInfo dev s.currentMtdPartnum = some part ∧ part.addr = p := by
  unfold MtdState.designated
  simp only [bind_eq_bind, bind_eq_some_iff, some.injEq, Prod.mk.injEq]
  constructor
  · rintro ⟨a, ha, dev, hdev, part, hpart, rfl, rfl⟩
    exact ⟨dev, part, ha, hdev, hpart, rfl⟩
  · rintro ⟨dev, part, ha, hdev, hpart, rfl⟩
    exact ⟨d, ha, dev, hdev, part, hpart, rfl, rfl⟩

theorem partInfo_eq (h : dev.WF) (n : Nat) : mtdPartInfo dev n = dev.parts[n]? := by
  unfold mtdPartInfo
  split
  · rename_i hle
    rw [getElem?_eq_none (h.count ▸ hle)]
  · rfl

/-- The devices of a good state, of which one is changed in its place. -/
theorem Good.setDevice (hs : s.Good) {old : MtdDevice} (hold : s.device dev.addr = some old) (hdev : dev.WF) {n : Nat}
    (hn : n < 2 ^ 8) (hcur : s.currentMtdDev = some dev.addr → n < dev.numParts)
    (hother : s.currentMtdDev ≠ some dev.addr → n = s.currentMtdPartnum) :
    MtdState.Good { s.setDevice dev with currentMtdPartnum := n } := by
  refine ⟨?_, ?_, ?_, hn⟩
  · intro d hd
    rcases mem_setDevice hd with rfl | hd
    · exact hdev
    · exact hs.devices_wf d hd
  · rw [map_addr_setDevice]
    exact hs.distinct
  · intro _
    have hne : s.devices ≠ [] := ne_nil_of_mem (mem_of_device hold).1
    obtain ⟨d, hd, hc, hlt⟩ := hs.current hne
    by_cases he : d.addr = dev.addr
    · have hfound := mem_of_device (device_setDevice_self hold)
      rw [he] at hc
      exact ⟨dev, hfound.1, hc, hcur hc⟩
    · refine ⟨d, ?_, hc, ?_⟩
      · have hfound := device_of_mem hs.distinct hd
        rw [← device_setDevice_other he] at hfound
        exact (mem_of_device hfound).1
      · rw [hother (by rw [hc]; simpa using he)]
        exact hlt

theorem designated_setDevice {old : MtdDevice} (hold : s.device dev.addr = some old) (hdev : dev.WF) {n d p : Nat}
    (hd : s.designated = some (d, p))
    (hcur : d = dev.addr → ∃ part, dev.parts[n]? = some part ∧ part.addr = p)
    (hother : s.currentMtdDev ≠ some dev.addr → n = s.currentMtdPartnum) :
    MtdState.designated { s.setDevice dev with currentMtdPartnum := n } = some (d, p) := by
  obtain ⟨e, part, hc, he, hpart, hp⟩ := designated_eq_some_iff.1 hd
  rw [designated_eq_some_iff]
  by_cases hde : d = dev.addr
  · obtain ⟨part', hpart', hp'⟩ := hcur hde
    exact ⟨dev, part', hc, by rw [hde]; exact device_setDevice_self hold, by rw [partInfo_eq hdev]; exact hpart', hp'⟩
  · refine ⟨e, part, hc, ?_, ?_, hp⟩
    · exact (device_setDevice_other hde).trans he
    · rw [hother (by rw [hc]; simpa using hde)]
      exact hpart

theorem Good.curr (hs : s.Good) {a : Nat} (hc : s.currentMtdDev = some a) (hdev : s.device a = some dev) :
    ∃ curr, dev.parts[s.currentMtdPartnum]? = some curr := by
  obtain ⟨hmem, rfl⟩ := mem_of_device hdev
  obtain ⟨d, hd, hcd, hlt⟩ := hs.current (ne_nil_of_mem hmem)
  have haddr : dev.addr = d.addr := some.inj (hc.symm.trans hcd)
  have hfound := device_of_mem hs.distinct hd
  rw [← haddr, hdev] at hfound
  obtain rfl := some.inj hfound
  rw [(hs.devices_wf dev hmem).count] at hlt
  exact ⟨_, getElem?_eq_getElem hlt⟩

theorem currPi_eq (hdev : dev.WF) : s.currPi dev = if s.currentMtdDev = some dev.addr then dev.parts[s.currentMtdPartnum]? else none := by
  rw [MtdState.currPi, partInfo_eq hdev]

/-- A change of one device that keeps the current partition in its list, under its new number. -/
theorem setDevice_keeps (dev : MtdDevice) (hs : s.Good) {old : MtdDevice} (hold : s.device dev.addr = some old) (hdev : dev.WF) {n : Nat}
    (hcur : s.currentMtdDev = some dev.addr → ∀ curr, old.parts[s.currentMtdPartnum]? = some curr → n < 2 ^ 8 ∧ dev.parts[n]? = some curr)
    (hother : s.currentMtdDev ≠ some dev.addr → n = s.currentMtdPartnum) :
    MtdState.Good { s.setDevice dev with currentMtdPartnum := n } ∧ ∀ d p, s.designated = some (d, p) →
      MtdState.designated { s.setDevice dev with currentMtdPartnum := n } = some (d, p) := by
  have hn : n < 2 ^ 8 := by
    by_cases hc : s.currentMtdDev = some dev.addr
    · obtain ⟨curr, hcurr⟩ := Good.curr hs hc hold
      exact (hcur hc curr hcurr).1
    · rw [hother hc]
      exact hs.small
  refine ⟨Good.setDevice hs hold hdev hn ?_ hother, ?_⟩
  · intro hc
    obtain ⟨curr, hcurr⟩ := Good.curr hs hc hold
    obtain ⟨hlt, -⟩ := List.getElem?_eq_some_iff.1 (hcur hc curr hcurr).2
    rw [hdev.count]
    exact hlt
  · intro d p hd
    refine designated_setDevice hold hdev hd ?_ hother
    intro hde
    obtain ⟨e, part, hc, he, hpart, hp⟩ := designated_eq_some_iff.1 hd
    subst hde
    rw [hold] at he
    obtain rfl := some.inj he
    rw [partInfo_eq (hs.devices_wf old (mem_of_device hold).1)] at hpart
    exact ⟨part, (hcur hc part hpart).2, hp⟩

/-! ## Adding a partition -/

theorem sortAddLoop_zero {part : PartInfo} {parts : List PartInfo} {r : List PartInfo × Option PartInfo}
    (hs : parts.Pairwise fun p q => p.offset ≤ q.offset) (h : sortAddLoop part parts = some r) (h0 : part.offset = 0) :
    ∀ x ∈ parts, x.offset ≠ 0 := by
  cases parts with
  | nil => simp
  | cons pi rest =>
    rw [sortAddLoop] at h
    split at h
    · cases h
    · rename_i hzero
      have hpi : pi.offset ≠ 0 := fun hp => hzero ⟨h0.trans hp.symm, hp⟩
      intro x hx
      rcases mem_cons.1 hx with rfl | hx
      · exact hpi
      · have := (pairwise_cons.1 hs).1 x hx
        omega

theorem WF.insert {part : PartInfo} {l₁ l₂ : List PartInfo} (hdev : dev.WF) (hparts : dev.parts = l₁ ++ l₂)
    (hroom : dev.numParts + 1 < 2 ^ 16) (hnew : part.addr ∉ dev.parts.map PartInfo.addr)
    (h₁ : ∀ x ∈ l₁, x.offset < part.offset) (h₂ : ∀ x ∈ l₂.head?, part.offset ≤ x.offset) :
    MtdDevice.WF { dev with parts := l₁ ++ part :: l₂, numParts := (dev.numParts + 1) % 2 ^ 16 } := by
  have hcount := hdev.count
  rw [hparts] at hcount hnew
  rw [length_append] at hcount
  refine ⟨?_, ?_, by simp, ?_, Nat.mod_lt _ (by decide)⟩
  · exact pairwise_insert (hparts ▸ hdev.sorted) h₁ h₂
  · show (dev.numParts + 1) % 2 ^ 16 = (l₁ ++ part :: l₂).length
    rw [Nat.mod_eq_of_lt hroom, length_append, length_cons]
    omega
  · show ((l₁ ++ part :: l₂).map PartInfo.addr).Nodup
    have hd := hdev.distinct
    rw [hparts] at hd
    rw [map_append, map_cons, nodup_middle, nodup_cons, ← map_append]
    exact ⟨hnew, hd⟩

/-- The current partition keeps its place when one is put into the list. -/
theorem sortAddNumber_spec {part curr : PartInfo} {l₁ l₂ : List PartInfo} {c : Nat}
    (hs : (l₁ ++ l₂).Pairwise fun p q => p.offset ≤ q.offset) (h₁ : ∀ x ∈ l₁, x.offset < part.offset)
    (h₂ : ∀ x ∈ l₂.head?, part.offset ≤ x.offset) (hc : (l₁ ++ l₂)[c]? = some curr) (hsmall : c < 2 ^ 8)
    (hroom : c + 1 < 2 ^ 8 ∨ curr.offset < part.offset) :
    sortAddNumber l₂.head? (some curr) c < 2 ^ 8 ∧ (l₁ ++ part :: l₂)[sortAddNumber l₂.head? (some curr) c]? = some curr := by
  have hshift := sortAdd_shift hs h₁ h₂ hc
  by_cases hle : l₁.length ≤ c
  · obtain ⟨pi, hpi, hoff⟩ := hshift.2 hle
    have hpart := h₂ pi hpi
    have hlt : c + 1 < 2 ^ 8 := hroom.resolve_right (by omega)
    have hn : sortAddNumber l₂.head? (some curr) c = c + 1 := by
      rw [hpi, sortAddNumber, if_pos hoff, Nat.mod_eq_of_lt hlt]
    rw [hn, getElem?_insert_right hle]
    exact ⟨hlt, hc⟩
  · have hn : sortAddNumber l₂.head? (some curr) c = c := by
      cases hpi : l₂.head? with
      | none => rfl
      | some pi =>
        rw [sortAddNumber, if_neg]
        exact fun hoff => hle (hshift.1 ⟨pi, hpi, hoff⟩)
    rw [hn, getElem?_insert_left (Nat.lt_of_not_le hle)]
    exact ⟨hsmall, hc⟩

theorem follows_partAdd (hs : s.Good) {a : Nat} {part : PartInfo} (hp : Proper s (.partAdd a part))
    (hok : Followable mtds s (.partAdd a part)) : Follows mtds s (.partAdd a part) := by
  obtain ⟨dev, hdev, hnew⟩ := hp
  have hstep : mtdStep mtds s (.partAdd a part) = (s.partAdd mtds dev part).2 := by
    rw [mtdStep, hdev]
    rfl
  have hsame : mtdStep mtds s (.partAdd a part) = s → Follows mtds s (.partAdd a part) := by
    intro h
    rw [Follows, h]
    exact ⟨hs, fun d p hd => hd⟩
  obtain ⟨hmem, haddr⟩ := mem_of_device hdev
  have hwf := hs.devices_wf dev hmem
  cases hv : partValidate mtds dev.id part with
  | none =>
    apply hsame
    rw [hstep, MtdState.partAdd, hv]
  | some q =>
    cases hr : sortAddLoop q dev.parts with
    | none =>
      apply hsame
      rw [hstep, MtdState.partAdd, hv]
      simp only [partSortAdd, hr, map_none]
    | some r =>
      obtain ⟨l₁, l₂, hparts, rfl, h₁, h₂⟩ := sortAddLoop_spec hr
      obtain ⟨hroom, hnum⟩ := hok dev q hdev hv (sortAddLoop_zero hwf.sorted hr)
      have hnew' : q.addr ∉ dev.parts.map PartInfo.addr := by
        rw [partValidate_addr hv]
        exact hnew
      have hwf' := WF.insert hwf hparts hroom hnew' h₁ h₂
      have hs' : mtdStep mtds s (.partAdd a part) =
          { s.setDevice { dev with parts := l₁ ++ q :: l₂, numParts := (dev.numParts + 1) % 2 ^ 16 } with
            currentMtdPartnum := sortAddNumber l₂.head? (s.currPi dev) s.currentMtdPartnum } := by
        rw [hstep, MtdState.partAdd, hv]
        simp only [partSortAdd, hr, map_some]
      rw [Follows, hs']
      subst haddr
      refine setDevice_keeps { dev with parts := l₁ ++ q :: l₂, numParts := (dev.numParts + 1) % 2 ^ 16 } hs hdev hwf'
        (fun hc curr hcurr => ?_) fun hc => ?_
      · have hpi : s.currPi dev = some curr := by rw [currPi_eq hwf, if_pos hc, hcurr]
        rw [hpi]
        rw [hparts] at hcurr
        exact sortAddNumber_spec (hparts ▸ hwf.sorted) h₁ h₂ hcurr hs.small (hnum.imp_right fun h => h curr hpi)
      · have hpi : s.currPi dev = none := by rw [currPi_eq hwf, if_neg hc]
        rw [hpi]
        cases l₂.head? <;> rfl

/-! ## Deleting -/

theorem first_current {first : MtdDevice} {rest : List MtdDevice} (hwf : ∀ d ∈ first :: rest, d.WF)
    (hnd : ((first :: rest).map MtdDevice.addr).Nodup) :
    MtdState.Good ⟨first :: rest, some first.addr, 0⟩ ∧ MtdState.designated ⟨first :: rest, some first.addr, 0⟩ = first.first := by
  have hfirst : first.WF := hwf first mem_cons_self
  obtain ⟨p, ps, hparts⟩ := exists_cons_of_ne_nil hfirst.nonempty
  have hpos : 0 < first.numParts := by
    rw [hfirst.count]
    exact length_pos_iff.2 hfirst.nonempty
  refine ⟨⟨hwf, hnd, fun _ => ⟨first, mem_cons_self, rfl, hpos⟩, Nat.two_pow_pos 8⟩, ?_⟩
  have hdes : MtdState.designated ⟨first :: rest, some first.addr, 0⟩ = some (first.addr, p.addr) := by
    refine designated_eq_some_iff.2 ⟨first, p, rfl, ?_, ?_, rfl⟩
    · rw [MtdState.device, find?_cons_of_pos (by simp)]
    · rw [partInfo_eq hfirst, hparts]
      rfl
  rw [hdes, MtdDevice.first, hparts]
  rfl

/-- Deleting a device. If it was the current one, partition 0 of the first device is the current one now. -/
theorem deviceDel_spec (hs : s.Good) {a : Nat} (hdev : s.device a = some dev) :
    (s.deviceDel dev).Good ∧ (s.deviceDel dev).device a = none ∧ ∀ d p, s.designated = some (d, p) → (s.deviceDel dev).designated =
        if a = d then (s.deviceDel dev).devices.head?.bind MtdDevice.first else some (d, p) := by
  obtain ⟨hmem, rfl⟩ := mem_of_device hdev
  have hwf : ∀ d ∈ s.devices.filter (·.addr ≠ dev.addr), d.WF := fun d hd => hs.devices_wf d (mem_filter.1 hd).1
  have hnd : ((s.devices.filter (·.addr ≠ dev.addr)).map MtdDevice.addr).Nodup :=
    hs.distinct.sublist (filter_sublist.map _)
  have hgone : (s.devices.filter (·.addr ≠ dev.addr)).find? (·.addr = dev.addr) = none := by
    rw [find?_eq_none]
    intro d hd
    simpa using (mem_filter.1 hd).2
  have hother (b : Nat) (hb : b ≠ dev.addr) : (s.devices.filter (·.addr ≠ dev.addr)).find? (·.addr = b) = s.device b :=
    device_filter_other hb
  unfold MtdState.deviceDel
  generalize s.devices.filter (·.addr ≠ dev.addr) = devices at hwf hnd hgone hother ⊢
  by_cases hc : s.currentMtdDev = some dev.addr
  · have hd (d p : Nat) (hdes : s.designated = some (d, p)) : dev.addr = d := by
      obtain ⟨e, part, hc', -⟩ := designated_eq_some_iff.1 hdes
      exact some.inj (hc.symm.trans hc')
    simp only [if_pos hc]
    cases devices with
    | nil =>
      refine ⟨⟨hwf, hnd, fun h => absurd rfl h, hs.small⟩, hgone, ?_⟩
      intro d p hdes
      rw [if_pos (hd d p hdes)]
      rfl
    | cons first rest =>
      obtain ⟨hgood, hfirst⟩ := first_current hwf hnd
      refine ⟨hgood, hgone, ?_⟩
      intro d p hdes
      rw [if_pos (hd d p hdes), hfirst]
      rfl
  · simp only [if_neg hc]
    refine ⟨⟨hwf, hnd, ?_, hs.small⟩, hgone, ?_⟩
    · intro _
      obtain ⟨d, hd, hcd, hlt⟩ := hs.current (ne_nil_of_mem hmem)
      have hne : d.addr ≠ dev.addr := fun h => hc (h ▸ hcd)
      have hfound := hother d.addr hne
      rw [device_of_mem hs.distinct hd] at hfound
      exact ⟨d, mem_of_find?_eq_some hfound, hcd, hlt⟩
    · intro d p hdes
      obtain ⟨e, part, hcd, he, hpart, hp⟩ := designated_eq_some_iff.1 hdes
      have hne : d ≠ dev.addr := fun h => hc (h ▸ hcd)
      rw [if_neg (Ne.symm hne)]
      exact designated_eq_some_iff.2 ⟨e, part, hcd, (hother d hne).trans he, hpart, hp⟩

theorem follows_deviceDel (hs : s.Good) {a : Nat} (hp : Proper s (.deviceDel a)) : Follows mtds s (.deviceDel a) := by
  obtain ⟨dev, hdev⟩ := hp
  have hstep : mtdStep mtds s (.deviceDel a) = s.deviceDel dev := by
    rw [mtdStep, hdev]
    rfl
  obtain ⟨hgood, -, hdes⟩ := deviceDel_spec hs hdev
  rw [Follows, hstep]
  exact ⟨hgood, hdes⟩

/-- The device without a partition of it. -/
theorem WF.remove {part : PartInfo} {l₁ l₂ : List PartInfo} (hdev : dev.WF) (hparts : dev.parts = l₁ ++ part :: l₂) (hne : dev.numParts ≠ 1) :
    MtdDevice.WF { dev with parts := l₁ ++ l₂, numParts := (dev.numParts + 2 ^ 16 - 1) % 2 ^ 16 } := by
  have hcount := hdev.count
  have hsmall := hdev.small
  have hsub : (l₁ ++ l₂).Sublist dev.parts := hparts ▸ (sublist_cons_self part l₂).append_left l₁
  rw [hparts, length_append, length_cons] at hcount
  have hnum : (dev.numParts + 2 ^ 16 - 1) % 2 ^ 16 = dev.numParts - 1 := by omega
  refine ⟨hdev.sorted.sublist hsub, ?_, ?_, hdev.distinct.sublist (hsub.map _), Nat.mod_lt _ (Nat.two_pow_pos 16)⟩
  · show (dev.numParts + 2 ^ 16 - 1) % 2 ^ 16 = (l₁ ++ l₂).length
    rw [hnum, length_append]
    omega
  · intro hnil
    have hlen := congrArg List.length hnil
    rw [length_append, length_nil] at hlen
    omega

theorem only_partition (hdev : dev.WF) (hone : dev.numParts = 1) {i j : Nat} {p q : PartInfo} (hp : dev.parts[i]? = some p)
    (hq : dev.parts[j]? = some q) : p = q := by
  have hlen := hdev.count.symm.trans hone
  obtain ⟨x, hx⟩ := length_eq_one_iff.1 hlen
  rw [hx] at hp hq
  rw [mem_singleton.1 (mem_of_getElem? hp), mem_singleton.1 (mem_of_getElem? hq)]

theorem addr_ne (hdev : dev.WF) {i j : Nat} (hij : i ≠ j) {p q : PartInfo} (hp : dev.parts[i]? = some p)
    (hq : dev.parts[j]? = some q) : p.addr ≠ q.addr := by
  have hp' : (dev.parts.map PartInfo.addr)[i]? = some p.addr := by rw [getElem?_map, hp, map_some]
  have hq' : (dev.parts.map PartInfo.addr)[j]? = some q.addr := by rw [getElem?_map, hq, map_some]
  intro he
  rw [he, ← hq'] at hp'
  exact hij ((List.getElem?_inj (List.getElem?_eq_some_iff.1 (hp'.trans hq')).1 hdev.distinct).1 hp')

/-- The number of the current partition after the deletion of another one that is not behind it at the same offset. -/
theorem delNumber_spec {part curr : PartInfo} {l₁ l₂ : List PartInfo} {c : Nat}
    (hs : (l₁ ++ part :: l₂).Pairwise fun p q => p.offset ≤ q.offset) (hc : (l₁ ++ part :: l₂)[c]? = some curr)
    (hne : c ≠ l₁.length) (haddr : curr.addr ≠ part.addr) (hbehind : c < l₁.length → curr.offset ≠ part.offset)
    (hsmall : c < 2 ^ 8) :
    delNumber part (some curr) c < 2 ^ 8 ∧ (l₁ ++ l₂)[delNumber part (some curr) c]? = some curr := by
  have hpart : (l₁ ++ part :: l₂)[l₁.length]? = some part := by simp
  rw [delNumber, if_neg haddr]
  rcases Nat.lt_or_gt_of_ne hne with hlt | hgt
  · have hle := offset_le_of_lt hs hlt hc hpart
    have hoff := hbehind hlt
    rw [if_neg (by omega), ← getElem?_insert_left hlt]
    exact ⟨hsmall, hc⟩
  · have hle := offset_le_of_lt hs hgt hpart hc
    have hn : (c + 2 ^ 8 - 1) % 2 ^ 8 = c - 1 := by omega
    obtain ⟨m, rfl⟩ : ∃ m, c = m + 1 := ⟨c - 1, by omega⟩
    rw [if_pos hle, hn, Nat.add_sub_cancel, ← getElem?_insert_right (Nat.le_of_lt_succ hgt)]
    exact ⟨by omega, hc⟩

theorem setDevice_reset (hs : s.Good) {old : MtdDevice} (hold : s.device dev.addr = some old) (hdev : dev.WF)
    (hc : s.currentMtdDev = some dev.addr) : MtdState.Good { s.setDevice dev with currentMtdPartnum := 0 } ∧
      MtdState.designated { s.setDevice dev with currentMtdPartnum := 0 } = dev.first := by
  have hpos : 0 < dev.numParts := by
    rw [hdev.count]
    exact length_pos_iff.2 hdev.nonempty
  refine ⟨Good.setDevice hs hold hdev (Nat.two_pow_pos 8) (fun _ => hpos) fun h => absurd hc h, ?_⟩
  obtain ⟨p, ps, hparts⟩ := exists_cons_of_ne_nil hdev.nonempty
  have hdes : MtdState.designated { s.setDevice dev with currentMtdPartnum := 0 } = some (dev.addr, p.addr) := by
    refine designated_eq_some_iff.2 ⟨dev, p, hc, device_setDevice_self hold, ?_, rfl⟩
    rw [partInfo_eq hdev, hparts]
    rfl
  rw [hdes, MtdDevice.first, hparts]
  rfl

/-- A device in whose place there is one without the partition `part`. -/
theorem setDevice_removed (hs : s.Good) {old : MtdDevice} {part : PartInfo} {l₁ l₂ : List PartInfo}
    (hold : s.device dev.addr = some old) (hdev : dev.WF) (haddr : old.addr = dev.addr)
    (hparts : old.parts = l₁ ++ part :: l₂) (hleft : dev.parts = l₁ ++ l₂)
    (hbehind : ∀ curr, s.currPi old = some curr → s.currentMtdPartnum < l₁.length → curr.offset ≠ part.offset) :
    MtdState.Good { s.setDevice dev with currentMtdPartnum := delNumber part (s.currPi old) s.currentMtdPartnum } ∧
      ∀ d q, s.designated = some (d, q) → MtdState.designated
        { s.setDevice dev with currentMtdPartnum := delNumber part (s.currPi old) s.currentMtdPartnum } =
          if dev.addr = d ∧ part.addr = q then dev.first else some (d, q) := by
  have hwf := hs.devices_wf old (mem_of_device hold).1
  have hpart : old.parts[l₁.length]? = some part := by simp [hparts]
  -- what is designated, as a partition of this device
  have hdesig {q : Nat} (hd : s.designated = some (dev.addr, q)) : ∃ x, old.parts[s.currentMtdPartnum]? = some x ∧ x.addr = q := by
    obtain ⟨e, x, -, he, hx, hxq⟩ := designated_eq_some_iff.1 hd
    rw [hold] at he
    obtain rfl := some.inj he
    exact ⟨x, partInfo_eq hwf _ ▸ hx, hxq⟩
  by_cases hc : s.currentMtdDev = some dev.addr
  · obtain ⟨curr, hcurr⟩ := Good.curr hs hc hold
    have hpi : s.currPi old = some curr := by rw [currPi_eq hwf, haddr, if_pos hc, hcurr]
    rw [hpi]
    by_cases hcj : s.currentMtdPartnum = l₁.length
    · have hsame : curr = part := some.inj (hcurr.symm.trans (hcj ▸ hpart))
      subst hsame
      obtain ⟨hgood, hfirst⟩ := setDevice_reset hs hold hdev hc
      rw [delNumber, if_pos rfl]
      refine ⟨hgood, ?_⟩
      intro d q hd
      obtain ⟨-, -, hcd, -⟩ := designated_eq_some_iff.1 hd
      obtain rfl : dev.addr = d := some.inj (hc.symm.trans hcd)
      obtain ⟨x, hx, rfl⟩ := hdesig hd
      rw [hcurr] at hx
      obtain rfl := some.inj hx
      rw [hfirst, if_pos ⟨rfl, rfl⟩]
    · have hne := addr_ne hwf hcj hcurr hpart
      have hnumber := delNumber_spec (hparts ▸ hwf.sorted) (hparts ▸ hcurr) hcj hne (hbehind curr hpi) hs.small
      rw [← hleft] at hnumber
      obtain ⟨hgood, hdes⟩ := setDevice_keeps _ hs hold hdev (n := delNumber part (some curr) s.currentMtdPartnum)
        (fun _ x hx => some.inj (hcurr.symm.trans hx) ▸ hnumber) fun h => absurd hc h
      refine ⟨hgood, ?_⟩
      intro d q hd
      rw [hdes d q hd, if_neg]
      rintro ⟨rfl, rfl⟩
      obtain ⟨x, hx, hxp⟩ := hdesig hd
      exact addr_ne hwf hcj hx hpart hxp
  · have hpi : s.currPi old = none := by rw [currPi_eq hwf, haddr, if_neg hc]
    rw [hpi]
    obtain ⟨hgood, hdes⟩ := setDevice_keeps _ hs hold hdev (n := s.currentMtdPartnum) (fun h => absurd h hc) fun _ => rfl
    refine ⟨hgood, ?_⟩
    intro d q hd
    obtain ⟨-, -, hcd, -⟩ := designated_eq_some_iff.1 hd
    rw [if_neg]
    · exact hdes d q hd
    · rintro ⟨rfl, -⟩
      exact hc hcd

theorem follows_partDel (hs : s.Good) {a p : Nat} (hp : Proper s (.partDel a p)) (hok : Followable mtds s (.partDel a p)) :
    Follows mtds s (.partDel a p) := by
  obtain ⟨dev, hdev, hpmem⟩ := hp
  obtain ⟨hmem, rfl⟩ := mem_of_device hdev
  have hwf := hs.devices_wf dev hmem
  obtain ⟨part, hfind⟩ : ∃ part, dev.parts.find? (·.addr = p) = some part := by
    rw [← isSome_iff_exists, find?_isSome]
    simpa using hpmem
  have hstep : mtdStep mtds s (.partDel dev.addr p) = s.partDel dev part := by
    rw [mtdStep, hdev, bind_some, hfind]
    rfl
  obtain rfl : part.addr = p := by simpa using find?_some hfind
  obtain ⟨j, hj⟩ := getElem?_of_mem (mem_of_find?_eq_some hfind)
  obtain ⟨l₁, l₂, hparts, rfl, hfilter⟩ := filter_addr_split hwf.distinct hj
  rw [Follows, hstep, MtdState.partDel]
  by_cases hone : dev.numParts = 1
  · -- the only partition: the device goes
    obtain ⟨hgood, hgone, hdes⟩ := deviceDel_spec hs hdev
    simp only [if_pos hone]
    refine ⟨hgood, ?_⟩
    intro d q hd
    rw [hdes d q hd, follow]
    by_cases hdd : dev.addr = d
    · obtain ⟨e, x, -, he, hx, rfl⟩ := designated_eq_some_iff.1 hd
      subst hdd
      rw [hdev] at he
      obtain rfl := some.inj he
      rw [partInfo_eq hwf] at hx
      obtain rfl := only_partition hwf hone hj hx
      rw [if_pos rfl, if_pos ⟨rfl, rfl⟩, hgone, none_or]
    · rw [if_neg hdd, if_neg fun h => hdd h.1]
  · have hwf' := WF.remove hwf hparts hone
    simp only [if_neg hone, hfilter]
    generalize hnew : ({ dev with
      parts := l₁ ++ l₂, numParts := (dev.numParts + 2 ^ 16 - 1) % 2 ^ 16 } : MtdDevice) = dev' at hwf'
    have haddr : dev.addr = dev'.addr := by rw [← hnew]
    rw [haddr] at hdev ⊢
    obtain ⟨hgood, hdes⟩ := setDevice_removed hs hdev hwf' haddr hparts (by rw [← hnew]) fun curr hpi hlt =>
      hok dev curr l₁.length part (haddr ▸ hdev) hpi hlt hj rfl
    refine ⟨hgood, ?_⟩
    intro d q hd
    rw [hdes d q hd, follow]
    split
    · rename_i he
      obtain ⟨rfl, -⟩ := he
      have hself : MtdState.device { s.setDevice dev' with
          currentMtdPartnum := delNumber part (s.currPi dev) s.currentMtdPartnum } dev'.addr = some dev' :=
        device_setDevice_self hdev
      rw [hself]
      rfl
    · rfl

/-! ## Adding a device -/

theorem follows_deviceAdd (hs : s.Good) {dev : MtdDevice} (hp : Proper s (.deviceAdd dev)) : Follows mtds s (.deviceAdd dev) := by
  obtain ⟨hnew, hwf⟩ := hp
  rw [Follows, mtdStep, MtdState.deviceAdd]
  split
  · rename_i hnil
    have hwf' : ∀ d ∈ [dev], d.WF := fun d hd => mem_singleton.1 hd ▸ hwf
    refine ⟨(first_current hwf' (nodup_singleton _)).1, ?_⟩
    intro d p hd
    obtain ⟨e, -, -, he, -⟩ := designated_eq_some_iff.1 hd
    have hmem := (mem_of_device he).1
    rw [hnil] at hmem
    cases hmem
  · rename_i hne
    refine ⟨⟨?_, ?_, ?_, hs.small⟩, ?_⟩
    · intro d hd
      rcases mem_append.1 hd with hd | hd
      · exact hs.devices_wf d hd
      · exact mem_singleton.1 hd ▸ hwf
    · rw [map_append, map_singleton, nodup_append_comm, singleton_append, nodup_cons]
      exact ⟨hnew, hs.distinct⟩
    · intro _
      obtain ⟨d, hd, hcur⟩ := hs.current hne
      exact ⟨d, mem_append_left _ hd, hcur⟩
    · intro d p hd
      obtain ⟨e, part, hc, he, hpart, hpp⟩ := designated_eq_some_iff.1 hd
      refine designated_eq_some_iff.2 ⟨e, part, hc, ?_, hpart, hpp⟩
      rw [MtdState.device, find?_append]
      rw [MtdState.device] at he
      rw [he, some_or]

theorem follows_step (hs : s.Good) {op : MtdOp} (hp : Proper s op) (hok : Followable mtds s op) : Follows mtds s op := by
  cases op with
  | partAdd a part => exact follows_partAdd hs hp hok
  | partDel a p => exact follows_partDel hs hp hok
  | deviceAdd dev => exact follows_deviceAdd hs hp
  | deviceDel a => exact follows_deviceDel hs hp

end MtdAux

/-- In every run from a good state whose calls all meet the condition, the state is good, and the next call that meets it
leaves a good state in which the current partition is the one from before, unless that was deleted: then it is partition 0 of
its device, or of the first device if its device is gone. -/
theorem current_follows_edits (mtds : Nat → Nat → Option MtdInfo) (s₀ s : MtdState) (ops : List MtdOp) (h₀ : s₀.Good)
    (hrun : Exec (Guarded (fun s op => Proper s op ∧ Followable mtds s op) (stepFn (mtdStep mtds))) s₀ ops s) :
    s.Good ∧ ∀ op, Proper s op → Followable mtds s op → Follows mtds s op := by
  have hstep (s : MtdState) (op : MtdOp) (s' : MtdState) (hs : s.Good)
      (h : Guarded (fun s op => Proper s op ∧ Followable mtds s op) (stepFn (mtdStep mtds)) s op s') : s'.Good := by
    obtain ⟨⟨hp, hok⟩, rfl⟩ := h
    exact (follows_step hs hp hok).1
  have hgood := hrun.invariant hstep h₀
  exact ⟨hgood, fun op hp hok => follows_step hgood hp hok⟩

/-- A partition of 4096 bytes, read and write. -/
def smallPart (addr offset : Nat) : PartInfo := ⟨addr, CString.ofBytes [0x61], false, 0x1000, offset, 0, 0x1000⟩

/-- A flash of 64 KiB with two partitions. -/
def twoParts (addr offset₁ offset₂ : Nat) : MtdDevice :=
  ⟨addr, ⟨1, addr, 0x10000, CString.ofBytes [0x66]⟩, 2, [smallPart 1 offset₁, smallPart 2 offset₂]⟩

theorem twoParts_wf {addr offset₁ offset₂ : Nat} (h : offset₁ ≤ offset₂) : (twoParts addr offset₁ offset₂).WF := by
  refine ⟨?_, rfl, cons_ne_nil _ _, ?_, ?_⟩
  · exact pairwise_cons.2 ⟨fun q hq => mem_singleton.1 hq ▸ h, pairwise_singleton _ _⟩
  · show [1, 2].Nodup
    decide
  · show 2 < 2 ^ 16
    decide

/-- The state before any device is added. -/
def noDevices : MtdState := ⟨[], none, 0⟩

theorem noDevices_good : noDevices.Good := by
  refine ⟨?_, nodup_nil, fun h => absurd rfl h, by decide⟩
  intro d hd
  cases hd

/-- Of two devices the first is deleted: partition 0 of the second is the current one. -/
theorem current_follows_deviceDel : ∃ s,
    Exec (Guarded (fun s op => Proper s op ∧ Followable (fun _ _ => none) s op) (stepFn (mtdStep fun _ _ => none))) noDevices
      [.deviceAdd (twoParts 7 0 0x1000), .deviceAdd (twoParts 8 0x1000 0x2000)] s ∧ s.designated = some (7, 1) ∧
    (mtdStep (fun _ _ => none) s (.deviceDel 7)).Good ∧
    (mtdStep (fun _ _ => none) s (.deviceDel 7)).designated = some (8, 1) := by
  have hrun : Exec (Guarded (fun s op => Proper s op ∧ Followable (fun _ _ => none) s op) (stepFn (mtdStep fun _ _ => none)))
      noDevices [.deviceAdd (twoParts 7 0 0x1000), .deviceAdd (twoParts 8 0x1000 0x2000)] _ :=
    Exec.cons ⟨⟨⟨by decide, twoParts_wf (by decide)⟩, trivial⟩, rfl⟩ (Exec.single ⟨⟨⟨by decide, twoParts_wf (by decide)⟩, trivial⟩, rfl⟩)
  obtain ⟨-, hnext⟩ := current_follows_edits _ _ _ _ noDevices_good hrun
  obtain ⟨hgood, hdes⟩ := hnext (.deviceDel 7) ⟨twoParts 7 0 0x1000, by decide⟩ trivial
  exact ⟨_, hrun, by decide, hgood, hdes 7 1 (by decide)⟩

/-- Of two partitions at the same offset the second is deleted while the first is the current one: the number of the current
partition becomes 255, and the device has one partition left. -/
theorem current_follows_edits_false : ∃ s,
    Exec (Guarded Proper (stepFn (mtdStep fun _ _ => none))) noDevices [.deviceAdd (twoParts 7 0x1000 0x1000)] s ∧
    s.designated = some (7, 1) ∧ Proper s (.partDel 7 2) ∧
    (mtdStep (fun _ _ => none) s (.partDel 7 2)).currentMtdPartnum = 255 ∧
    (mtdStep (fun _ _ => none) s (.partDel 7 2)).designated = none ∧ ¬Follows (fun _ _ => none) s (.partDel 7 2) := by
  have hrun : Exec (Guarded Proper (stepFn (mtdStep fun _ _ => none))) noDevices [.deviceAdd (twoParts 7 0x1000 0x1000)] _ :=
    Exec.single ⟨⟨by decide, twoParts_wf (by decide)⟩, rfl⟩
  refine ⟨_, hrun, by decide, ⟨twoParts 7 0x1000 0x1000, by decide, by decide⟩, by decide, by decide, ?_⟩
  intro h
  have := h.2 7 1 (by decide)
  revert this
  decide

end UBoot

import UBoot.Lemmas.NandSweep
import UBoot.Theorems.NandRoundTrip

/-!
# A nand command on a partition

What a command that names a partition sets out to access is a sweep over one device, or nothing.
-/

namespace UBoot

open Lib List Option

/-- The arguments from the one that stands for an offset or a partition on. -/
def NandCmd.place (cmd : NandCmd) (args : List (List UInt8)) : List (List UInt8) :=
  match cmd with
  | .erase | .eraseSpread | .erasePart => args.drop (eraseOptions args)
  | .read | .write | .readRaw | .writeRaw => args.tail

namespace NandBoard

/-- The page size of a device. -/
def writesize (b : NandBoard) (d : Nat) : Nat := (b.nandInfo d).elim 1 (·.chip.writesize)

/-- The byte is one of the partition. -/
def Owns (dev : MtdDevice) (part : PartInfo) (d a : Nat) : Prop :=
  dev.id.type = MTD_DEV_TYPE_NAND ∧ d = dev.id.num ∧ part.offset ≤ a ∧ a < part.offset + part.size

/-- Every page with a byte that is accessed lies in the partition. -/
def InPartition (b : NandBoard) (dev : MtdDevice) (part : PartInfo) (run : NandRun) : Prop :=
  ∀ x ∈ run.accesses, ∀ a₀, x.Covers a₀ → ∀ a, a / b.writesize run.device = a₀ / b.writesize run.device → Owns dev part run.device a

/-! ## What a command sets out to access -/

/-- What a name stands for that is the name of a partition: an offset on the current device where it reads as a number. -/
def target (b : NandBoard) (name : List UInt8) (dev : MtdDevice) (part : PartInfo) : Option NandRange :=
  match str2off name with
  | some off =>
    if off < b.deviceSize b.currDevice then some ⟨b.currDevice, off, b.deviceSize b.currDevice - off⟩ else none
  | none =>
    if dev.id.type = MTD_DEV_TYPE_NAND ∧ (b.nandInfo dev.id.num).isSome then some ⟨dev.id.num, part.offset, part.size⟩ else none

/-- The device and the sweep of an erase. -/
def eraseRequest (b : NandBoard) (spread : Bool) (r : NandRange) (sizes : List (List UInt8)) : Option (Nat × Sweep) :=
  (argSize r.size sizes).bind fun size => (b.nandInfo r.device).bind fun info =>
    (info.chip.eraseSweep spread r.offset (info.chip.eraseLength size)).map fun s => (r.device, s)

/-- The device and the sweep of a plain read or write. -/
def skipRequest (b : NandBoard) (nand : NandInfo) (r : NandRange) (sizes : List (List UInt8)) : Option (Nat × Sweep) :=
  (argSize r.size sizes).bind fun size => (nand.chip.skipSweep r.offset (size % 2 ^ 32)).map fun s => (b.currDevice, s)

/-- The device and the sweep of a raw read or write. -/
def rawRequest (b : NandBoard) (nand : NandInfo) (op : NandOp) (r : NandRange) (sizes : List (List UInt8)) : Option (Nat × Sweep) :=
  (pageCount sizes).bind fun count =>
    if r.size < count * nand.chip.writesize % 2 ^ 32 then none
    else (nand.chip.rawSweep op r.offset count).map fun s => (b.currDevice, s)

/-- The device and the sweep of a command with the name of a partition and the arguments behind it; `none` for one that accesses nothing. -/
def request (b : NandBoard) (cmd : NandCmd) (name : List UInt8) (sizes : List (List UInt8)) (dev : MtdDevice) (part : PartInfo) :
    Option (Nat × Sweep) :=
  (b.nandInfo b.currDevice).bind fun nand => (b.target name dev part).bind fun r =>
    match cmd with
    | .erase => if sizes.length = 1 then b.eraseRequest false r sizes else none
    | .eraseSpread => if sizes.length = 1 then b.eraseRequest true r sizes else none
    | .erasePart => if sizes.length = 0 then b.eraseRequest false r sizes else none
    | .read => b.skipRequest nand r sizes
    | .write => b.skipRequest nand r sizes
    | .readRaw => b.rawRequest nand .read r sizes
    | .writeRaw => b.rawRequest nand .program r sizes

end NandBoard

namespace NandPartitionAux

open NandBoard NandChip

variable {b : NandBoard} {cmd : NandCmd} {name : List UInt8} {args sizes : List (List UInt8)} {devices : List MtdDevice} {dev : MtdDevice}
  {part : PartInfo}
variable {runs : (List NandAccess → Int) → Nat → NandRun} {d : Nat}

/-- The runs of a command make the accesses of what it sets out to access. -/
structure Makes (runs : (List NandAccess → Int) → Nat → NandRun) (request : Option (Nat × Sweep)) : Prop where
  within : ∀ answer fuel, ∀ x ∈ (runs answer fuel).accesses, ∃ s, request = some ((runs answer fuel).device, s) ∧ x.Within s
  covers : ∀ d s a, request = some (d, s) → s.Reaches a →
    ∃ fuel, (runs succeeds fuel).device = d ∧ ∃ x ∈ (runs succeeds fuel).accesses, x.Covers a

theorem makes_none (h : ∀ answer fuel, (runs answer fuel).accesses = []) : Makes runs none where
  within answer fuel x hx := by
    rw [h] at hx
    cases hx
  covers _ _ _ hr := by cases hr

theorem makes_some {o : Option Sweep}
    (hdevice : ∀ answer fuel, (runs answer fuel).device = d)
    (hwithin : ∀ answer fuel, ∀ x ∈ (runs answer fuel).accesses, ∃ s, o = some s ∧ x.Within s)
    (hcovers : ∀ s a, o = some s → s.Reaches a → ∃ fuel, ∃ x ∈ (runs succeeds fuel).accesses, x.Covers a) :
    Makes runs (o.map fun s => (d, s)) where
  within answer fuel x hx := by
    obtain ⟨s, rfl, hs⟩ := hwithin answer fuel x hx
    exact ⟨s, by rw [hdevice]; rfl, hs⟩
  covers d' s a hr ha := by
    obtain ⟨s', ho, heq⟩ := map_eq_some_iff.1 hr
    obtain ⟨rfl, rfl⟩ := Prod.mk.inj heq
    obtain ⟨fuel, hx⟩ := hcovers s' a ho ha
    exact ⟨fuel, hdevice _ _, hx⟩

/-! ## The arguments -/

theorem mem_of_findDevAndPart (h : findDevAndPart devices name = some (dev, part)) : dev ∈ devices ∧ part ∈ dev.parts := by
  rw [findDevAndPart] at h
  split at h
  · rename_i r hr
    obtain rfl := some.inj h
    obtain ⟨d, hd, hp⟩ := exists_of_findSome?_eq_some hr
    obtain ⟨p, hfind, heq⟩ := map_eq_some_iff.1 hp
    obtain ⟨rfl, rfl⟩ := Prod.mk.inj heq
    exact ⟨hd, mem_of_find?_eq_some hfind⟩
  · simp only [bind_eq_bind, bind_eq_some_iff] at h
    obtain ⟨⟨type, dnum, p⟩, -, h⟩ := h
    split at h
    · cases h
    · split at h
      · cases h
      · simp only [bind_eq_some_iff] at h
        obtain ⟨d, hd, q, hq, heq⟩ := h
        obtain ⟨rfl, rfl⟩ := Prod.mk.inj (some.inj heq)
        refine ⟨mem_of_find?_eq_some hd, ?_⟩
        rw [mtdPartInfo] at hq
        split at hq
        · cases hq
        · exact mem_of_getElem? hq

theorem argOff_target (htable : b.mtdparts = some devices) (hpart : findDevAndPart devices name = some (dev, part)) :
    (b.argOff name b.currDevice).2 = b.target name dev part := by
  rw [argOff, target]
  cases str2off name with
  | some off =>
    by_cases hoff : b.deviceSize b.currDevice ≤ off
    · simp only [if_pos hoff, if_neg (Nat.not_lt.2 hoff)]
    · simp only [if_neg hoff, if_pos (Nat.lt_of_not_le hoff)]
  | none =>
    simp only [getPart, htable, hpart]
    by_cases htype : dev.id.type = MTD_DEV_TYPE_NAND
    · cases hinfo : b.nandInfo dev.id.num with
      | none => simp [htype]
      | some info => simp [htype]
    · simp [htype]

theorem argOffSize_target (htable : b.mtdparts = some devices) (hpart : findDevAndPart devices name = some (dev, part)) :
    (b.argOffSize name sizes b.currDevice).2 =
      (b.target name dev part).bind fun r => (argSize r.size sizes).map fun size => { r with size := size } := by
  rw [argOffSize, ← argOff_target htable hpart]
  cases b.argOff name b.currDevice with
  | mk curr r =>
    cases r with
    | none => rfl
    | some r => rfl

/-! ## The commands -/

theorem makes_erase (htable : b.mtdparts = some devices) (hpart : findDevAndPart devices name = some (dev, part))
    (hargs : args.drop (eraseOptions args) = name :: sizes) (spread : Bool) (n : Nat) :
    Makes (fun answer fuel => b.doErase answer spread (n + 1) fuel args)
      ((b.target name dev part).bind fun r => if sizes.length = n then b.eraseRequest spread r sizes else none) := by
  have hlength : args.length = eraseOptions args + 1 + sizes.length := by
    have h := congrArg List.length hargs
    rw [length_drop, length_cons] at h
    omega
  by_cases hn : sizes.length = n
  · have hcount : ¬args.length ≠ eraseOptions args + (n + 1) := by omega
    simp only [doErase, if_neg hcount, hargs, if_pos hn]
    have hrange : (b.argOffSize name sizes b.currDevice).2 = _ := argOffSize_target htable hpart
    generalize b.argOffSize name sizes b.currDevice = found at hrange ⊢
    obtain ⟨curr, range⟩ := found
    obtain rfl : range = _ := hrange
    cases b.target name dev part with
    | none => exact makes_none fun _ _ => rfl
    | some r =>
      simp only [bind_some, eraseRequest]
      cases argSize r.size sizes with
      | none => exact makes_none fun _ _ => rfl
      | some size =>
        simp only [bind_some, map_some]
        cases b.nandInfo r.device with
        | none => exact makes_none fun _ _ => rfl
        | some info =>
          exact makes_some (fun _ _ => rfl) (fun _ _ => eraseOpts_within) fun s a hs ha => ⟨_, eraseOpts_covers hs ha⟩
  · have hcount : args.length ≠ eraseOptions args + (n + 1) := by omega
    have hnone : ((b.target name dev part).bind fun r => if sizes.length = n then b.eraseRequest spread r sizes else none) = none := by
      cases b.target name dev part with
      | none => rfl
      | some r => exact if_neg hn
    rw [hnone]
    apply makes_none
    intro answer fuel
    rw [doErase, if_pos hcount]
    rfl

theorem makes_readWrite (htable : b.mtdparts = some devices) (hpart : findDevAndPart devices name = some (dev, part))
    (hargs : args.tail = name :: sizes) (nand : NandInfo) (op : NandOp) :
    Makes (fun answer fuel => b.doReadWrite answer nand op fuel args) ((b.target name dev part).bind fun r => b.skipRequest nand r sizes) := by
  obtain ⟨addr, rfl⟩ : ∃ addr, args = addr :: name :: sizes := by
    cases args with
    | nil => cases hargs
    | cons addr args => exact ⟨addr, congrArg (addr :: ·) hargs⟩
  simp only [doReadWrite]
  have hrange : (b.argOffSize name sizes b.currDevice).2 = _ := argOffSize_target htable hpart
  generalize b.argOffSize name sizes b.currDevice = found at hrange ⊢
  obtain ⟨curr, range⟩ := found
  obtain rfl : range = _ := hrange
  cases b.target name dev part with
  | none => exact makes_none fun _ _ => rfl
  | some r =>
    simp only [bind_some, skipRequest]
    cases argSize r.size sizes with
    | none => exact makes_none fun _ _ => rfl
    | some size =>
      exact makes_some (fun _ _ => rfl) (fun _ _ => skipBad_within) fun s a hs ha => ⟨_, skipBad_covers hs ha⟩

theorem makes_raw (htable : b.mtdparts = some devices) (hpart : findDevAndPart devices name = some (dev, part))
    (hargs : args.tail = name :: sizes) (nand : NandInfo) (op : NandOp) :
    Makes (fun answer _ => b.doRaw answer nand op args) ((b.target name dev part).bind fun r => b.rawRequest nand op r sizes) := by
  obtain ⟨addr, rfl⟩ : ∃ addr, args = addr :: name :: sizes := by
    cases args with
    | nil => cases hargs
    | cons addr args => exact ⟨addr, congrArg (addr :: ·) hargs⟩
  simp only [doRaw]
  have hrange := argOff_target htable hpart
  generalize b.argOff name b.currDevice = found at hrange ⊢
  obtain ⟨curr, range⟩ := found
  obtain rfl : range = _ := hrange
  cases b.target name dev part with
  | none => exact makes_none fun _ _ => rfl
  | some r =>
    simp only [bind_some, rawRequest]
    cases pageCount sizes with
    | none => exact makes_none fun _ _ => rfl
    | some count =>
      simp only [bind_some]
      by_cases hlimit : r.size < count * nand.chip.writesize % 2 ^ 32
      · simp only [if_pos hlimit]
        exact makes_none fun _ _ => rfl
      · simp only [if_neg hlimit]
        refine makes_some (fun _ _ => rfl) ?_ fun s a hs ha => ⟨0, rawAccess_covers hs ha⟩
        intro answer _ x hx
        exact (rawAccess_within x hx).resolve_left not_mem_nil

/-- `do_nand` accesses what the command sets out to access. -/
theorem makes_doNand (htable : b.mtdparts = some devices) (hpart : findDevAndPart devices name = some (dev, part))
    (hargs : cmd.place args = name :: sizes) :
    Makes (fun answer fuel => b.doNand answer fuel cmd args) (b.request cmd name sizes dev part) := by
  simp only [doNand, request]
  cases b.nandInfo b.currDevice with
  | none => exact makes_none fun _ _ => rfl
  | some nand =>
    cases cmd with
    | erase => exact makes_erase htable hpart hargs false 1
    | eraseSpread => exact makes_erase htable hpart hargs true 1
    | erasePart => exact makes_erase htable hpart hargs false 0
    | read => exact makes_readWrite htable hpart hargs nand .read
    | write => exact makes_readWrite htable hpart hargs nand .program
    | readRaw => exact makes_raw htable hpart hargs nand .read
    | writeRaw => exact makes_raw htable hpart hargs nand .program

/-! ## Pages and blocks -/

theorem part_aligned (htable : b.mtdparts = some devices) (hpart : findDevAndPart devices name = some (dev, part))
    (htype : dev.id.type = MTD_DEV_TYPE_NAND) {info : NandInfo} (hinfo : b.nandInfo dev.id.num = some info) :
    info.chip.erasesize ∣ part.offset ∧ info.chip.erasesize ∣ part.size := by
  obtain ⟨hdev, hmem⟩ := mem_of_findDevAndPart hpart
  have hok := b.validated devices htable dev hdev htype part hmem info hinfo
  rw [eraseblockOk, if_pos (show info.mtd.eraseregions.isEmpty = true from rfl), Bool.and_eq_true] at hok
  exact ⟨Nat.dvd_of_mod_eq_zero (beq_iff_eq.1 hok.1), Nat.dvd_of_mod_eq_zero (beq_iff_eq.1 hok.2)⟩

theorem le_iff_of_page {ws m a a₀ : Nat} (hws : 0 < ws) (hm : ws ∣ m) (h : a / ws = a₀ / ws) : m ≤ a ↔ m ≤ a₀ := by
  obtain ⟨k, rfl⟩ := hm
  rw [Nat.mul_comm, ← Nat.le_div_iff_mul_le hws, ← Nat.le_div_iff_mul_le hws, h]

/-- With a byte of it, a partition has the page of the byte. -/
theorem owns_page (htable : b.mtdparts = some devices) (hpart : findDevAndPart devices name = some (dev, part)) {a a₀ : Nat}
    (hpage : a / b.writesize d = a₀ / b.writesize d) (h : Owns dev part d a₀) : Owns dev part d a := by
  obtain ⟨htype, rfl, hlo, hhi⟩ := h
  cases hinfo : b.nandInfo dev.id.num with
  | none =>
    have hone : b.writesize dev.id.num = 1 := by rw [NandBoard.writesize, hinfo, elim_none]
    rw [hone, Nat.div_one, Nat.div_one] at hpage
    exact ⟨htype, rfl, hpage ▸ hlo, hpage ▸ hhi⟩
  | some info =>
    have hws : b.writesize dev.id.num = info.chip.writesize := by rw [NandBoard.writesize, hinfo, elim_some]
    rw [hws] at hpage
    obtain ⟨hoffset, hsize⟩ := part_aligned htable hpart htype hinfo
    have hdvd := info.chip.writesize_dvd
    have hlow := le_iff_of_page info.chip.writesize_pos (Nat.dvd_trans hdvd hoffset) hpage
    have hhigh := le_iff_of_page info.chip.writesize_pos (Nat.dvd_trans hdvd (Nat.dvd_add hoffset hsize)) hpage
    exact ⟨htype, rfl, hlow.2 hlo, Nat.lt_of_not_le fun hge => absurd hhi (Nat.not_lt.2 (hhigh.1 hge))⟩

theorem eraseLength_le (chip : NandChip) {size m : Nat} (h : size ≤ m) (hm : chip.erasesize ∣ m) :
    chip.eraseLength size * chip.erasesize ≤ m := by
  obtain ⟨k, rfl⟩ := hm
  have hE := chip.erasesize_pos
  have hblocks : chip.eraseLength size ≤ k := by
    have hquot : (size + chip.erasesize - 1) % 2 ^ 64 / chip.erasesize ≤ (chip.erasesize * k + (chip.erasesize - 1)) / chip.erasesize :=
      Nat.div_le_div_right (Nat.le_trans (Nat.mod_le _ _) (by omega))
    rw [Nat.mul_add_div hE, Nat.div_eq_of_lt (Nat.sub_lt hE Nat.one_pos), Nat.add_zero] at hquot
    exact Nat.le_trans (Nat.mod_le _ _) hquot
  rw [Nat.mul_comm]
  exact Nat.mul_le_mul_left _ hblocks

/-- A plain erase of a partition by a name that is not a number, of a size whose highest bit is clear, stays in the partition. -/
theorem erase_stays (htable : b.mtdparts = some devices) (hpart : findDevAndPart devices name = some (dev, part)) (hname : str2off name = none)
    (hcmd : cmd = .erase ∨ cmd = .erasePart) (hsize : ∀ arg ∈ sizes.head?, ∀ size, str2off arg = some size → size < 2 ^ 63) {s : Sweep}
    (h : b.request cmd name sizes dev part = some (d, s)) : s.Spares (Owns dev part d) := by
  obtain ⟨n, hreq⟩ : ∃ n,
      (b.target name dev part).bind (fun r => if sizes.length = n then b.eraseRequest false r sizes else none) = some (d, s) := by
    obtain ⟨nand, -, h⟩ := bind_eq_some_iff.1 h
    rcases hcmd with rfl | rfl
    · exact ⟨1, h⟩
    · exact ⟨0, h⟩
  obtain ⟨r, htarget, hreq⟩ := bind_eq_some_iff.1 hreq
  split at hreq
  · obtain ⟨size, hargs, hreq⟩ := bind_eq_some_iff.1 hreq
    obtain ⟨info, hinfo, hreq⟩ := bind_eq_some_iff.1 hreq
    obtain ⟨s', hs, heq⟩ := map_eq_some_iff.1 hreq
    obtain ⟨rfl, rfl⟩ := Prod.mk.inj heq
    simp only [target, hname] at htarget
    split at htarget
    · rename_i hnand
      obtain rfl := some.inj htarget
      -- the size that was accepted is not longer than the partition
      have hle : size ≤ part.size := by
        cases sizes with
        | nil => exact Nat.le_of_eq (some.inj hargs).symm
        | cons arg rest =>
          rw [argSize] at hargs
          split at hargs
          · cases hargs
          · rename_i v hv
            have hlt := hsize arg rfl v hv
            split at hargs
            · cases hargs
            · rename_i hlimit
              obtain rfl := some.inj hargs
              rw [loff, if_pos hlt] at hlimit
              dsimp only at hlimit
              omega
      rw [eraseSweep] at hs
      split at hs
      · cases hs
      · obtain rfl := some.inj hs
        have hlength := eraseLength_le info.chip hle (part_aligned htable hpart hnand.1 hinfo).2
        generalize hs : Sweep.mk _ _ _ _ _ = s
        have hlo : s.start = part.offset := by rw [← hs]
        have hcount : s.counted (part.offset + part.size) = part.size := by
          rw [← hs, Sweep.counted_all fun _ => rfl]
          exact Nat.add_sub_cancel_left ..
        have hroom : s.length ≤ s.counted (part.offset + part.size) := by
          rw [hcount, ← hs]
          exact hlength
        have hstays := Sweep.spares_of_room (Nat.le_of_eq hlo.symm) hroom
        exact fun a ha hstop htakes hout => hstays a ha hstop htakes fun h => hout ⟨hnand.1, rfl, h.1, h.2⟩
    · cases htarget
  · cases hreq

end NandPartitionAux

open NandPartitionAux

/-- A command that names a partition accesses no page outside the partition, whatever the driver answers, if and only if its sweep is used up
before it would take a byte that is not one of the partition on its device. -/
theorem nand_command_in_partition_iff (b : NandBoard) (cmd : NandCmd) (args : List (List UInt8)) (name : List UInt8)
    (sizes : List (List UInt8)) (devices : List MtdDevice) (dev : MtdDevice) (part : PartInfo) (hargs : cmd.place args = name :: sizes)
    (htable : b.mtdparts = some devices) (hpart : findDevAndPart devices name = some (dev, part)) :
    (∀ answer fuel, b.InPartition dev part (b.doNand answer fuel cmd args)) ↔
      ∀ d s, b.request cmd name sizes dev part = some (d, s) → s.Spares (NandBoard.Owns dev part d) := by
  have hmakes := makes_doNand htable hpart hargs
  constructor
  · intro h d s hs
    rw [Sweep.spares_iff]
    intro a ha
    obtain ⟨fuel, hdevice, x, hx, hcovers⟩ := hmakes.covers d s a hs ha
    have howns := h NandChip.succeeds fuel x hx a hcovers a rfl
    rwa [hdevice] at howns
  · intro h answer fuel x hx a₀ hcovers a hpage
    obtain ⟨s, hs, hwithin⟩ := hmakes.within answer fuel x hx
    have howns := Sweep.spares_iff.1 (h _ s hs) a₀ (hwithin.2 a₀ hcovers)
    exact owns_page htable hpart hpage howns

/-- Four blocks of 128 KiB in pages of 2 KiB, the first block bad. -/
def pagedChip : NandChip :=
  { plainChip (2 ^ 19) 17 (· == 0) (by decide) (by decide) with
    writesize := 2 ^ 11
    writesize_pow := ⟨11, rfl⟩
    writesize_dvd := ⟨2 ^ 6, rfl⟩ }

/-- The partition `p` of the first two blocks. -/
def partP : PartInfo := ⟨2, CString.ofBytes [0x70], false, 2 ^ 18, 0, 0, 2 ^ 17⟩

def partDevice : MtdDevice := ⟨1, ⟨2, 0, 2 ^ 19, CString.ofBytes [0x6e, 0x61, 0x6e, 0x64, 0x30]⟩, 1, [partP]⟩

/-- A board with this device and partition. -/
def partBoard : NandBoard where
  nandInfo d := if d = 0 then some ⟨pagedChip, 0⟩ else none
  currDevice := 0
  mtdparts := some [partDevice]
  validated := by
    intro devices hdevices dev hdev _ part hmem info hinfo
    obtain rfl := some.inj hdevices
    obtain rfl := mem_singleton.1 hdev
    obtain rfl := mem_singleton.1 hmem
    obtain rfl := some.inj hinfo
    decide

/-- `nand erase.part p` -/
theorem nand_command_in_partition_erase_part : findDevAndPart [partDevice] [0x70] = some (partDevice, partP) ∧
    ∀ answer fuel, partBoard.InPartition partDevice partP (partBoard.doNand answer fuel .erasePart [[0x70]]) := by
  have hfind : findDevAndPart [partDevice] [0x70] = some (partDevice, partP) := rfl
  exact ⟨hfind, (nand_command_in_partition_iff partBoard .erasePart [[0x70]] [0x70] [] [partDevice] partDevice partP rfl rfl hfind).2
    fun _ _ h => erase_stays (b := partBoard) rfl hfind rfl (Or.inr rfl) (by simp) h⟩

/-- `nand read 0 p` skips the bad block, and reads the block behind the partition. -/
theorem nand_command_in_partition_false :
    ¬∀ (b : NandBoard) (cmd : NandCmd) (args : List (List UInt8)) (name : List UInt8) (sizes : List (List UInt8)) (devices : List MtdDevice)
      (dev : MtdDevice) (part : PartInfo), cmd.place args = name :: sizes → b.mtdparts = some devices →
      findDevAndPart devices name = some (dev, part) → ∀ answer fuel, b.InPartition dev part (b.doNand answer fuel cmd args) := by
  intro h
  have hin := h partBoard .read [[0x30], [0x70]] [0x70] [] [partDevice] partDevice partP rfl rfl rfl (fun _ => 0) 8
  have hrun : (partBoard.doNand (fun _ => 0) 8 .read [[0x30], [0x70]]).accesses = [⟨.read, 0x20000, 0x20000⟩, ⟨.read, 0x40000, 0x20000⟩] := by
    decide
  have howns := hin ⟨.read, 0x40000, 0x20000⟩ (by rw [hrun]; decide) 0x40000 ⟨by decide, by decide⟩ 0x40000 rfl
  exact absurd howns.2.2.2 (by decide)

end UBoot

import UBoot.Partitions
import UBoot.Lib.Machine
import Mathlib

/-!
# The partitions that are printed and looked up

The walk that prints the partitions of a disk and the one that looks one up go through the same records with the same numbers, so
they find the same entries. But the numbers are printed as `int`, while `disk_partition_t` keeps them unsigned.
-/

namespace UBoot

open List

section

/-- What is asked of a record: its signature, no mark of a FAT file system, at most one extended entry, and the boot flags of its
entries. -/
structure DosRecord (buffer : Nat → UInt8) : Prop where
  mbr : isDosMbr buffer = true
  oneExtended : ((dosPartitions buffer).filter DosPartition.isExtended).length ≤ 1
  bootInd : ∀ p ∈ dosPartitions buffer, p.sysInd ≠ 0 → p.bootInd = 0 ∨ p.bootInd = 0x80

/-- A chain of records that ends, from a record with a base on: each with its sector and its entries. -/
inductive DosChain (d : BlockDev) : UInt32 → UInt32 → List (UInt32 × List DosPartition) → Prop where
  | unreadable {sector relative : UInt32} : d.blockRead sector = none → DosChain d sector relative []
  | last {sector relative : UInt32} {buffer : Nat → UInt8} : d.blockRead sector = some buffer → DosRecord buffer →
      (∀ p ∈ dosPartitions buffer, p.isExtended = false) → DosChain d sector relative [(sector, dosPartitions buffer)]
  | link {sector relative : UInt32} {buffer : Nat → UInt8} {p : DosPartition} {records : List (UInt32 × List DosPartition)} :
      d.blockRead sector = some buffer → DosRecord buffer → p ∈ dosPartitions buffer → p.isExtended = true →
      DosChain d (p.next sector relative).1 (p.next sector relative).2 records →
      DosChain d sector relative ((sector, dosPartitions buffer) :: records)

/-- The line of a number for an entry that is not extended. -/
def PartPrint.isLine (n : Nat) : PartPrint → Bool
  | .part l => l.partNum = n ∧ l.extd = false
  | _ => false

/-- Both walks end, and for every number the look-up finds a start and a size just if they are printed, when `num` says as what a number
is printed; and at most one line is printed for it. -/
def ListedAs (num : UInt32 → Int) (d : BlockDev) (rounds : Nat) : Prop :=
  ∃ out, printPartDos d rounds = some out ∧ ∀ n, 1 ≤ n → (∃ found, getPartitionInfoDos d rounds n = some found ∧ ∀ s z : Int,
      (∃ info, found = some info ∧ num info.start = s ∧ num info.size = z) ↔
        ∃ l, PartPrint.part l ∈ out ∧ (PartPrint.part l).isLine n = true ∧ l.lbaStart = s ∧ l.lbaSize = z) ∧
    (out.filter (PartPrint.isLine n)).length ≤ 1

namespace PartDosAux

/-! ### The partitions of a chain -/

variable {p : DosPartition} {records : List (UInt32 × List DosPartition)} {w : Nat}

/-- An entry with its number and the sector of its record. -/
structure NumberedPart where
  number : Nat
  sector : UInt32
  entry : DosPartition

/-- The used entries of a record that are not extended, with their numbers. -/
def recordParts (sector : UInt32) : List DosPartition → Nat → List NumberedPart
  | [], _ => []
  | p :: ps, n =>
    let rest := recordParts sector ps (if p.counts sector then n + 1 else n)
    if p.sysInd ≠ 0 ∧ ¬p.isExtended then ⟨n, sector, p⟩ :: rest else rest

/-- The number behind a record. -/
def recordNext (sector : UInt32) : List DosPartition → Nat → Nat
  | [], n => n
  | p :: ps, n => recordNext sector ps (if p.counts sector then n + 1 else n)

def chainParts : List (UInt32 × List DosPartition) → Nat → List NumberedPart
  | [], _ => []
  | r :: rs, n => recordParts r.1 r.2 n ++ chainParts rs (recordNext r.1 r.2 n)

variable {d : BlockDev} {sector relative : UInt32} {ps : List DosPartition} {n rounds : Nat} {q : NumberedPart}

theorem le_recordNext (sector : UInt32) (ps : List DosPartition) (n : Nat) : n ≤ recordNext sector ps n := by
  induction ps generalizing n with
  | nil => exact Nat.le_refl n
  | cons p ps ih =>
    rw [recordNext]
    split
    · exact Nat.le_of_succ_le (ih (n + 1))
    · exact ih n

theorem counts_of_used (sector : UInt32) (h : p.sysInd ≠ 0 ∧ ¬p.isExtended) : p.counts sector = true := by
  simp [DosPartition.counts, h.1, h.2]

/-- The numbers of a record go up, from the one before it to the one behind it. -/
theorem recordParts_numbers (sector : UInt32) (ps : List DosPartition) (n : Nat) :
    (recordParts sector ps n).Pairwise (fun q q' => q.number < q'.number) ∧
      ∀ q ∈ recordParts sector ps n, n ≤ q.number ∧ q.number < recordNext sector ps n := by
  induction ps generalizing n with
  | nil => exact ⟨List.Pairwise.nil, fun q hq => nomatch hq⟩
  | cons p ps ih =>
    rw [recordParts, recordNext]
    obtain ⟨hup, hbounds⟩ := ih (if p.counts sector then n + 1 else n)
    have hle : n ≤ if p.counts sector then n + 1 else n := by
      split
      · exact Nat.le_succ n
      · exact Nat.le_refl n
    split
    next hused =>
      have hcounts := counts_of_used sector hused
      rw [if_pos hcounts] at hup hbounds ⊢
      refine ⟨pairwise_cons.2 ⟨fun q hq => (hbounds q hq).1, hup⟩, fun q hq => ?_⟩
      rcases mem_cons.1 hq with rfl | hq
      · exact ⟨Nat.le_refl n, le_recordNext sector ps (n + 1)⟩
      · exact ⟨Nat.le_of_succ_le (hbounds q hq).1, (hbounds q hq).2⟩
    · exact ⟨hup, fun q hq => ⟨Nat.le_trans hle (hbounds q hq).1, (hbounds q hq).2⟩⟩

theorem chainParts_numbers (records : List (UInt32 × List DosPartition)) (n : Nat) :
    (chainParts records n).Pairwise (fun q q' => q.number < q'.number) ∧ ∀ q ∈ chainParts records n, n ≤ q.number := by
  induction records generalizing n with
  | nil => exact ⟨List.Pairwise.nil, fun q hq => nomatch hq⟩
  | cons r rs ih =>
    obtain ⟨hup, hbounds⟩ := recordParts_numbers r.1 r.2 n
    obtain ⟨hup', hbounds'⟩ := ih (recordNext r.1 r.2 n)
    refine ⟨pairwise_append.2 ⟨hup, hup', fun q hq q' hq' => ?_⟩, fun q hq => ?_⟩
    · exact Nat.lt_of_lt_of_le (hbounds q hq).2 (hbounds' q' hq')
    · rcases mem_append.1 hq with hq | hq
      · exact (hbounds q hq).1
      · exact Nat.le_trans (le_recordNext r.1 r.2 n) (hbounds' q hq)

/-! ### Printing -/

/-- The line of a partition. -/
def NumberedPart.line (q : NumberedPart) : PartLine := printOnePart q.entry q.sector q.number

/-- The lines for entries that are not extended. -/
def usedLines : List PartPrint → List PartLine
  | [] => []
  | .part l :: out => if l.extd then usedLines out else l :: usedLines out
  | _ :: out => usedLines out

theorem usedLines_append (out out' : List PartPrint) : usedLines (out ++ out') = usedLines out ++ usedLines out' := by
  induction out with
  | nil => rfl
  | cons x out ih =>
    cases x with
    | part l =>
      rw [cons_append, usedLines, usedLines, ih]
      split
      · rfl
      · rfl
    | cantRead dev s => exact ih
    | badSignature a b => exact ih

theorem printPartitions_eq (sector : UInt32) (ps : List DosPartition) (n : Nat) :
    usedLines (printPartitions sector ps n).1 = (recordParts sector ps n).map NumberedPart.line ∧
      (printPartitions sector ps n).2 = recordNext sector ps n := by
  induction ps generalizing n with
  | nil => exact ⟨rfl, rfl⟩
  | cons p ps ih =>
    obtain ⟨hlines, hnext⟩ := ih (if p.counts sector then n + 1 else n)
    rw [printPartitions, recordParts, recordNext]
    have hextd : (printOnePart p sector n).extd = p.isExtended := rfl
    by_cases hused : p.sysInd ≠ 0 ∧ ¬p.isExtended
    · rw [if_pos ⟨hused.1, Or.inr hused.2⟩, if_pos hused]
      refine ⟨?_, hnext⟩
      rw [usedLines, hextd, if_neg hused.2, hlines]
      rfl
    · rw [if_neg hused]
      split
      next hprinted =>
        -- an extended entry of the first record
        have hext : p.isExtended = true := by
          by_cases h : p.isExtended = true
          · exact h
          · exact absurd ⟨hprinted.1, h⟩ hused
        refine ⟨?_, hnext⟩
        rw [usedLines, hextd, if_pos hext, hlines]
      · exact ⟨hlines, hnext⟩

theorem filter_extended {buffer : Nat → UInt8} (hrec : DosRecord buffer) (hp : p ∈ dosPartitions buffer)
    (hext : p.isExtended = true) : (dosPartitions buffer).filter DosPartition.isExtended = [p] := by
  have hmem : p ∈ (dosPartitions buffer).filter DosPartition.isExtended := mem_filter.2 ⟨hp, hext⟩
  obtain ⟨p', hp'⟩ := length_eq_one_iff.1 (Nat.le_antisymm hrec.oneExtended (length_pos_of_mem hmem))
  rw [hp'] at hmem ⊢
  rw [mem_singleton.1 hmem]

theorem printPartitionExtended_eq (h : DosChain d sector relative records)
    (hrounds : records.length < rounds) : ∃ out, printPartitionExtended d rounds sector relative n = some out ∧
      usedLines out = (chainParts records n).map NumberedPart.line := by
  induction h generalizing rounds n with
  | unreadable hread =>
    obtain ⟨rounds, rfl⟩ := Nat.exists_eq_add_one.2 hrounds
    rw [printPartitionExtended, hread]
    exact ⟨_, rfl, rfl⟩
  | @last sector relative buffer hread hrec hnone =>
    obtain ⟨rounds, rfl⟩ : ∃ k, rounds = k + 1 := ⟨rounds - 1, by rw [length_singleton] at hrounds; omega⟩
    have hfilter : (dosPartitions buffer).filter DosPartition.isExtended = [] :=
      filter_eq_nil_iff.2 fun p hp hext => Bool.false_ne_true ((hnone p hp).symm.trans hext)
    rw [printPartitionExtended, hread]
    dsimp only
    rw [if_pos hrec.mbr, hfilter]
    refine ⟨_, rfl, ?_⟩
    rw [usedLines_append, (printPartitions_eq sector (dosPartitions buffer) n).1]
    simp [chainParts, usedLines]
  | @link sector relative buffer p records hread hrec hp hext _ ih =>
    rw [length_cons] at hrounds
    obtain ⟨rounds, rfl⟩ : ∃ k, rounds = k + 1 := ⟨rounds - 1, by omega⟩
    obtain ⟨below, hbelow, hlines⟩ := ih (n := recordNext sector (dosPartitions buffer) n) (Nat.lt_of_succ_lt_succ hrounds)
    obtain ⟨hhere, hnext⟩ := printPartitions_eq sector (dosPartitions buffer) n
    rw [printPartitionExtended, hread]
    dsimp only
    rw [if_pos hrec.mbr, filter_extended hrec hp hext, hnext]
    refine ⟨(printPartitions sector (dosPartitions buffer) n).1 ++ below, ?_, ?_⟩
    · simp [mapM_cons, hbelow]
    · rw [usedLines_append, hhere, hlines, chainParts, map_append]

/-! ### Looking up -/

/-- What is kept of a partition. -/
def NumberedPart.info (d : BlockDev) (q : NumberedPart) : DiskPartition := dosPartitionInfo d q.entry q.sector q.number

theorem lookupPartitions_eq (hboot : ∀ p ∈ ps, p.sysInd ≠ 0 → p.bootInd = 0 ∨ p.bootInd = 0x80) :
    lookupPartitions d sector w ps n = ((recordParts sector ps n).find? fun q => q.number = w).elim (.inr (recordNext sector ps n))
      fun q => .inl (q.info d) := by
  induction ps generalizing n with
  | nil => rfl
  | cons p ps ih =>
    have ih' := ih (n := if p.counts sector then n + 1 else n) fun p' hp' => hboot p' (mem_cons_of_mem _ hp')
    rw [lookupPartitions, recordParts, recordNext, ih']
    by_cases hused : p.sysInd ≠ 0 ∧ ¬p.isExtended
    · have hflag : p.bootInd &&& 0x7f = 0 := by
        rcases hboot p mem_cons_self hused.1 with h | h
        · rw [h]
          rfl
        · rw [h]
          rfl
      by_cases hn : n = w
      · have hfound : decide (n = w) = true := decide_eq_true hn
        rw [if_pos ⟨hflag, hused.1, hn, hused.2⟩, if_pos hused, find?_cons]
        dsimp only
        rw [hfound]
        rfl
      · have hfound : decide (n = w) = false := decide_eq_false hn
        rw [if_neg fun hno => hn hno.2.2.1, if_pos hused, find?_cons]
        dsimp only
        rw [hfound]
    · rw [if_neg fun hno => hused ⟨hno.2.1, hno.2.2.2⟩, if_neg hused]

theorem getPartitionInfoExtended_eq (h : DosChain d sector relative records)
    (hrounds : records.length < rounds) : getPartitionInfoExtended d w rounds sector relative n =
      some (((chainParts records n).find? fun q => q.number = w).map (NumberedPart.info d)) := by
  induction h generalizing rounds n with
  | unreadable hread =>
    obtain ⟨rounds, rfl⟩ := Nat.exists_eq_add_one.2 hrounds
    rw [getPartitionInfoExtended, hread]
    rfl
  | @last sector relative buffer hread hrec hnone =>
    obtain ⟨rounds, rfl⟩ : ∃ k, rounds = k + 1 := ⟨rounds - 1, by rw [length_singleton] at hrounds; omega⟩
    have hsig : hasDosSignature buffer = true := (Bool.and_eq_true_iff.1 hrec.mbr).1
    have hfind : (dosPartitions buffer).find? DosPartition.isExtended = none :=
      find?_eq_none.2 fun p hp hext => Bool.false_ne_true ((hnone p hp).symm.trans hext)
    rw [getPartitionInfoExtended, hread]
    dsimp only
    rw [if_pos hsig, lookupPartitions_eq hrec.bootInd, hfind, chainParts, chainParts, append_nil]
    cases (recordParts sector (dosPartitions buffer) n).find? fun q => q.number = w with
    | none => rfl
    | some q => rfl
  | @link sector relative buffer p records hread hrec hp hext _ ih =>
    rw [length_cons] at hrounds
    obtain ⟨rounds, rfl⟩ : ∃ k, rounds = k + 1 := ⟨rounds - 1, by omega⟩
    have hsig : hasDosSignature buffer = true := (Bool.and_eq_true_iff.1 hrec.mbr).1
    have hfind : (dosPartitions buffer).find? DosPartition.isExtended = some p := by
      rw [← head?_filter, filter_extended hrec hp hext]
      rfl
    have ih' := ih (n := recordNext sector (dosPartitions buffer) n) (Nat.lt_of_succ_lt_succ hrounds)
    rw [getPartitionInfoExtended, hread]
    dsimp only
    rw [if_pos hsig, lookupPartitions_eq hrec.bootInd, hfind, chainParts, find?_append]
    cases (recordParts sector (dosPartitions buffer) n).find? fun q => q.number = w with
    | none => exact ih'
    | some q => rfl

/-! ### Both -/

theorem mem_usedLines {out : List PartPrint} {l : PartLine} : l ∈ usedLines out ↔ PartPrint.part l ∈ out ∧ l.extd = false := by
  induction out with
  | nil => simp [usedLines]
  | cons x out ih =>
    cases x with
    | part l' =>
      rw [usedLines]
      split
      next hext =>
        rw [ih, mem_cons]
        refine and_congr_left fun hl => ⟨Or.inr, fun h => h.resolve_left fun he => ?_⟩
        rw [← (PartPrint.part.inj he), hl] at hext
        exact Bool.false_ne_true hext
      next hext =>
        rw [mem_cons, ih, mem_cons, PartPrint.part.injEq]
        constructor
        · rintro (rfl | h)
          · exact ⟨Or.inl rfl, Bool.eq_false_iff.2 hext⟩
          · exact ⟨Or.inr h.1, h.2⟩
        · rintro ⟨rfl | h, hl⟩
          · exact Or.inl rfl
          · exact Or.inr ⟨h, hl⟩
    | cantRead dev s => simp [usedLines, ih]
    | badSignature a b => simp [usedLines, ih]

/-- The lines of a number are those of the partitions. -/
theorem length_filter_isLine (out : List PartPrint) (n : Nat) :
    (out.filter (PartPrint.isLine n)).length = ((usedLines out).filter fun l => l.partNum = n).length := by
  induction out with
  | nil => rfl
  | cons x out ih =>
    cases x with
    | part l =>
      rw [usedLines, filter_cons]
      by_cases hext : l.extd = true
      · have hno : (PartPrint.part l).isLine n = false := by simp [PartPrint.isLine, hext]
        rw [hno, if_pos hext]
        exact ih
      · rw [if_neg hext, filter_cons]
        have hsame : (PartPrint.part l).isLine n = decide (l.partNum = n) := by simp [PartPrint.isLine, hext]
        rw [hsame]
        split
        · rw [length_cons, length_cons, ih]
        · exact ih
    | cantRead dev s => exact ih
    | badSignature a b => exact ih

theorem find_number (hq : q ∈ chainParts records n) :
    ((chainParts records n).find? fun q' => q'.number = q.number) = some q := by
  have hup := (chainParts_numbers records n).1
  generalize chainParts records n = qs at hq hup
  induction qs with
  | nil => cases hq
  | cons q' qs ih =>
    obtain ⟨hfirst, hup⟩ := pairwise_cons.1 hup
    rcases mem_cons.1 hq with rfl | hq
    · rw [find?_cons, decide_eq_true (rfl : q.number = q.number)]
    · rw [find?_cons, decide_eq_false (Nat.ne_of_lt (hfirst q hq))]
      exact ih hq hup

theorem filter_number (records : List (UInt32 × List DosPartition)) (n w : Nat) :
    ((chainParts records n).filter fun q => q.number = w).length ≤ 1 := by
  have hup := (chainParts_numbers records n).1
  generalize chainParts records n = qs at hup
  induction qs with
  | nil => exact Nat.zero_le 1
  | cons q qs ih =>
    obtain ⟨hfirst, hup⟩ := pairwise_cons.1 hup
    rw [filter_cons]
    split
    next hq =>
      have hrest : (qs.filter fun q' => q'.number = w) = [] := by
        refine filter_eq_nil_iff.2 fun q' hq' hw => ?_
        have hlt := hfirst q' hq'
        rw [of_decide_eq_true hq, of_decide_eq_true hw] at hlt
        exact Nat.lt_irrefl w hlt
      rw [hrest]
      exact Nat.le_refl 1
    · exact ih hup

/-- The walks agree as the numbers are printed when these are those of the partitions of the chain. -/
theorem listedAs_iff (h : DosChain d 0 0 records) (hrounds : records.length < rounds)
    (num : UInt32 → Int) : ListedAs num d rounds ↔ ∀ q ∈ chainParts records 1,
      num (q.sector + q.entry.start4) = toLong (q.sector + q.entry.start4).toNat ∧ num q.entry.size4 = toLong q.entry.size4.toNat := by
  obtain ⟨out, hout, hlines⟩ := printPartitionExtended_eq (n := 1) h hrounds
  have hline (l : PartLine) (n : Nat) : PartPrint.part l ∈ out ∧ (PartPrint.part l).isLine n = true ↔
      ∃ q ∈ chainParts records 1, q.number = n ∧ q.line = l := by
    have hisLine : (PartPrint.part l).isLine n = true ↔ l.partNum = n ∧ l.extd = false := decide_eq_true_iff
    rw [hisLine, and_comm (a := l.partNum = n), ← and_assoc, ← mem_usedLines, hlines, mem_map]
    constructor
    · rintro ⟨⟨q, hq, rfl⟩, hn⟩
      exact ⟨q, hq, hn, rfl⟩
    · rintro ⟨q, hq, hn, rfl⟩
      exact ⟨⟨q, hq, rfl⟩, hn⟩
  constructor
  · rintro ⟨out', hout', hall⟩ q hq
    obtain rfl : out' = out := Option.some.inj (hout'.symm.trans hout)
    obtain ⟨⟨found, hfound, hboth⟩, -⟩ := hall q.number ((chainParts_numbers records 1).2 q hq)
    have hlookup := getPartitionInfoExtended_eq (n := 1) (w := q.number) h hrounds
    rw [find_number hq] at hlookup
    obtain rfl := Option.some.inj (hfound.symm.trans hlookup)
    obtain ⟨l, hl, hmem, hstart, hsize⟩ := (hboth _ _).1 ⟨_, rfl, rfl, rfl⟩
    obtain ⟨q', hq', hn, rfl⟩ := (hline l q.number).1 ⟨hl, hmem⟩
    obtain rfl : q' = q := by
      have hsame := find_number hq'
      rw [hn, find_number hq] at hsame
      exact (Option.some.inj hsame).symm
    exact ⟨hstart.symm, hsize.symm⟩
  · intro hnum
    refine ⟨out, hout, fun n hn => ⟨⟨_, getPartitionInfoExtended_eq h hrounds, fun s z => ?_⟩, ?_⟩⟩
    · constructor
      · rintro ⟨info, hinfo, rfl, rfl⟩
        obtain ⟨q, hq, rfl⟩ := Option.map_eq_some_iff.1 hinfo
        have hmem := mem_of_find?_eq_some hq
        have hqn : q.number = n := by simpa using find?_some hq
        obtain ⟨hl, hmark⟩ := (hline q.line n).2 ⟨q, hmem, hqn, rfl⟩
        exact ⟨q.line, hl, hmark, (hnum q hmem).1.symm, (hnum q hmem).2.symm⟩
      · rintro ⟨l, hl, hmark, rfl, rfl⟩
        obtain ⟨q, hq, rfl, rfl⟩ := (hline l n).1 ⟨hl, hmark⟩
        refine ⟨q.info d, ?_, (hnum q hq).1, (hnum q hq).2⟩
        rw [find_number hq]
        rfl
    · rw [length_filter_isLine, hlines, filter_map, length_map]
      exact filter_number records 1 n

theorem mem_chainParts :
    (∃ m, ⟨m, sector, p⟩ ∈ chainParts records n) ↔ ∃ r ∈ records, r.1 = sector ∧ p ∈ r.2 ∧ p.sysInd ≠ 0 ∧ p.isExtended = false := by
  have hrecord (sector' : UInt32) (ps : List DosPartition) (n : Nat) : (∃ m, ⟨m, sector, p⟩ ∈ recordParts sector' ps n) ↔
      sector' = sector ∧ p ∈ ps ∧ p.sysInd ≠ 0 ∧ p.isExtended = false := by
    induction ps generalizing n with
    | nil => simp [recordParts]
    | cons p' ps ih =>
      rw [recordParts]
      split
      next hused =>
        simp only [mem_cons, NumberedPart.mk.injEq, exists_or, ih]
        rw [Bool.not_eq_true] at hused
        grind
      next hused =>
        rw [ih, mem_cons]
        rw [Bool.not_eq_true] at hused
        grind
  induction records generalizing n with
  | nil => simp [chainParts]
  | cons r rs ih =>
    simp only [chainParts, mem_append, exists_or, hrecord, ih, mem_cons]
    grind

/-- A number is printed as it is when it is an `int`. -/
theorem toNat_eq_toLong_iff (w : UInt32) : (w.toNat : Int) = toLong w.toNat ↔ w.toNat < 2 ^ 31 := by
  unfold toLong
  split
  next h => exact iff_of_true rfl h
  next h => exact iff_of_false (by omega) h

/-! ### Disks -/

/-- A record with a partition table. -/
def tableBlock (table : List UInt8) (i : Nat) : UInt8 :=
  if i = DOS_PART_MAGIC_OFFSET then 0x55 else if i = DOS_PART_MAGIC_OFFSET + 1 then 0xaa
  else if DOS_PART_TBL_OFFSET ≤ i then table.getD (i - DOS_PART_TBL_OFFSET) 0 else 0

/-- A primary partition and an extended one at sector 200. -/
def primaryTable : Nat → UInt8 :=
  tableBlock [0x80, 0, 0, 0, 0x83, 0, 0, 0, 63, 0, 0, 0, 100, 0, 0, 0, 0, 0, 0, 0, 0x05, 0, 0, 0, 200, 0, 0, 0, 100, 0, 0, 0]

/-- A logical partition. -/
def logicalTable : Nat → UInt8 := tableBlock [0, 0, 0, 0, 0x83, 0, 0, 0, 1, 0, 0, 0, 50, 0, 0, 0]

/-- A disk with both. -/
def smallPartDisk : BlockDev := ⟨1, 0, fun s => if s = 0 then some primaryTable else if s = 200 then some logicalTable else none⟩

theorem smallPartDisk_chain : DosChain smallPartDisk 0 0 [(0, dosPartitions primaryTable), (200, dosPartitions logicalTable)] := by
  have hprimary : DosRecord primaryTable := ⟨by decide, by decide, by decide⟩
  have hlogical : DosRecord logicalTable := ⟨by decide, by decide, by decide⟩
  have hmem : dosPartitionAt primaryTable (DOS_PART_TBL_OFFSET + 16 * 1) ∈ dosPartitions primaryTable :=
    mem_map.2 ⟨1, by decide, rfl⟩
  exact DosChain.link rfl hprimary hmem (by decide) (DosChain.last rfl hlogical (by decide))

/-- A partition at sector 2^31. -/
def farTable : Nat → UInt8 := tableBlock [0, 0, 0, 0, 0x83, 0, 0, 0, 0, 0, 0, 0x80, 8, 0, 0, 0]

def farPartDisk : BlockDev := ⟨1, 0, fun s => if s = 0 then some farTable else none⟩

theorem farPartDisk_chain : DosChain farPartDisk 0 0 [(0, dosPartitions farTable)] :=
  DosChain.last rfl ⟨by decide, by decide, by decide⟩ (by decide)

end PartDosAux

open PartDosAux

/-- The partitions of every chain that ends are printed as they are found, up to the sign of a number. The numbers themselves agree
exactly if every used entry that is not extended has a start and a size below 2^31. -/
theorem dosPartitions_listed_iff {d : BlockDev} {records : List (UInt32 × List DosPartition)} (h : DosChain d 0 0 records) {rounds : Nat}
    (hrounds : records.length < rounds) :
    ListedAs (fun w => toLong w.toNat) d rounds ∧
      (ListedAs (fun w => w.toNat) d rounds ↔ ∀ r ∈ records, ∀ p ∈ r.2, p.sysInd ≠ 0 → p.isExtended = false →
        (r.1 + p.start4).toNat < 2 ^ 31 ∧ p.size4.toNat < 2 ^ 31) := by
  refine ⟨(listedAs_iff h hrounds _).2 fun q _ => ⟨rfl, rfl⟩, (listedAs_iff h hrounds _).trans ?_⟩
  simp only [toNat_eq_toLong_iff]
  constructor
  · intro hall r hr p hp hsys hext
    obtain ⟨m, hm⟩ := (mem_chainParts (n := 1)).2 ⟨r, hr, rfl, hp, hsys, hext⟩
    exact hall _ hm
  · rintro hall ⟨m, sector, p⟩ hq
    obtain ⟨r, hr, rfl, hp, hsys, hext⟩ := mem_chainParts.1 ⟨m, hq⟩
    exact hall r hr p hp hsys hext

/-- A disk with a primary and a logical partition. -/
theorem dosPartitions_listed_small : ListedAs (fun w => w.toNat) smallPartDisk 3 :=
  (dosPartitions_listed_iff smallPartDisk_chain (by decide)).2.2 (by decide)

/-- A partition at sector 2^31 is printed at -2^31. -/
theorem dosPartitions_listed_far : ¬∀ (d : BlockDev) (records : List (UInt32 × List DosPartition)) (rounds : Nat),
      DosChain d 0 0 records → records.length < rounds → ListedAs (fun w => w.toNat) d rounds := by
  intro h
  have hlisted := h farPartDisk _ 2 farPartDisk_chain (by decide)
  have hmem : ⟨1, 0, dosPartitionAt farTable DOS_PART_TBL_OFFSET⟩ ∈ chainParts [(0, dosPartitions farTable)] 1 := mem_cons_self
  have hprinted := ((listedAs_iff farPartDisk_chain (by decide) _).1 hlisted _ hmem).1
  exact absurd hprinted (by decide)

end

/-!
## Whether the walks over the records of a disk end

Neither walk remembers where it was, so each of them ends on exactly the disks on which its links do not lead back to a record.
`dos_walks_end_iff` says so for both; the look-up of a number also ends when it meets the number first.
-/

section

/-- The extended partitions that `print_partition_extended` goes into from a record with a base. -/
def PrintLink (d : BlockDev) (a b : UInt32 × UInt32) : Prop :=
  ∃ buffer, d.blockRead a.1 = some buffer ∧ isDosMbr buffer = true ∧ ∃ p ∈ dosPartitions buffer, p.isExtended = true ∧ b = p.next a.1 a.2

/-- The extended partition that `get_partition_info_extended` goes into: the first of the record. -/
def LookupLink (d : BlockDev) (a b : UInt32 × UInt32) : Prop :=
  ∃ buffer, d.blockRead a.1 = some buffer ∧ hasDosSignature buffer = true ∧
    ∃ p, (dosPartitions buffer).find? DosPartition.isExtended = some p ∧ b = p.next a.1 a.2

/-- The records that `get_partition_info_extended` goes through on its way from one record to another: the sector and the entries of
each but the last. -/
inductive LookupPath (d : BlockDev) : UInt32 × UInt32 → List (UInt32 × List DosPartition) → UInt32 × UInt32 → Prop where
  | here (a : UInt32 × UInt32) : LookupPath d a [] a
  | link {a b : UInt32 × UInt32} {buffer : Nat → UInt8} {p : DosPartition} {records : List (UInt32 × List DosPartition)} :
      d.blockRead a.1 = some buffer → hasDosSignature buffer = true →
      (dosPartitions buffer).find? DosPartition.isExtended = some p → LookupPath d (p.next a.1 a.2) records b →
      LookupPath d a ((a.1, dosPartitions buffer) :: records) b

def countingEntries (records : List (UInt32 × List DosPartition)) : Nat :=
  (records.map fun r => r.2.countP fun p => p.counts r.1).sum

/-- A used partition with a good boot flag. -/
def DosPartition.isUsable (p : DosPartition) : Prop := p.bootInd &&& 0x7f = 0 ∧ p.sysInd ≠ 0 ∧ p.isExtended = false

/-- On the way from a record, where the numbers start with `n`, there is a usable partition with the number `part`. -/
def MeetsPart (d : BlockDev) (part : Nat) (a : UInt32 × UInt32) (n : Nat) : Prop :=
  ∃ records b buffer before p behind, LookupPath d a records b ∧ d.blockRead b.1 = some buffer ∧ hasDosSignature buffer = true ∧
    dosPartitions buffer = before ++ p :: behind ∧ p.isUsable ∧ n + countingEntries records + before.countP (·.counts b.1) = part

namespace PartDosEndsAux

variable {d : BlockDev} {a b : UInt32 × UInt32} {n rounds part : Nat}
variable {records : List (UInt32 × List DosPartition)}

instance finite_uint32 : Finite UInt32 :=
  Finite.of_injective (fun w => (⟨w.toNat, w.toNat_lt⟩ : Fin (2 ^ 32))) fun _ _ h => UInt32.toNat_inj.1 (Fin.mk.inj h)

/-! ### Printing -/

theorem isSome_mapM_iff {α β : Type} {f : α → Option β} {l : List α} : (l.mapM f).isSome ↔ ∀ x ∈ l, (f x).isSome := by
  induction l with
  | nil => simp
  | cons x l ih =>
    rw [mapM_cons, forall_mem_cons, ← ih]
    cases f x with
    | none => simp
    | some y => cases l.mapM f <;> simp

/-- A walk ends within the rounds that are left just if those from the extended partitions of its record do, with the number behind the
record. -/
theorem printPartitionExtended_succ (d : BlockDev) (a : UInt32 × UInt32) (n : Nat) :
    ∃ n', ∀ rounds, (printPartitionExtended d (rounds + 1) a.1 a.2 n).isSome ↔
      ∀ b, PrintLink d a b → (printPartitionExtended d rounds b.1 b.2 n').isSome := by
  simp only [printPartitionExtended]
  cases hread : d.blockRead a.1 with
  | none =>
    refine ⟨n, fun rounds => iff_of_true rfl ?_⟩
    rintro b ⟨buffer, hbuffer, -⟩
    rw [hread] at hbuffer
    cases hbuffer
  | some buffer =>
    dsimp only
    refine ⟨(printPartitions a.1 (dosPartitions buffer) n).2, fun rounds => ?_⟩
    split
    next hmbr =>
      rw [Option.isSome_map, isSome_mapM_iff]
      constructor
      · rintro h b ⟨buffer', hbuffer, -, p, hp, hext, rfl⟩
        rw [hread] at hbuffer
        cases hbuffer
        exact h p (mem_filter.2 ⟨hp, hext⟩)
      · intro h p hp
        obtain ⟨hp, hext⟩ := mem_filter.1 hp
        exact h _ ⟨buffer, hread, hmbr, p, hp, hext, rfl⟩
    next hmbr =>
      refine iff_of_true rfl ?_
      rintro b ⟨buffer', hbuffer, hmbr', -⟩
      rw [hread] at hbuffer
      cases hbuffer
      exact absurd hmbr' hmbr

theorem not_reachesCycle_of_print (h : (printPartitionExtended d rounds a.1 a.2 n).isSome) : ¬Lib.ReachesCycle (PrintLink d) a := by
  induction rounds generalizing a n with
  | zero => cases h
  | succ rounds ih =>
    obtain ⟨n', hiff⟩ := printPartitionExtended_succ d a n
    intro hcyc
    obtain ⟨b, hab, hb⟩ := Lib.reachesCycle_iff.1 hcyc
    exact ih ((hiff rounds).1 h b hab) hb

theorem printPartitionExtended_mono {rounds' : Nat} (hle : rounds ≤ rounds') (h : (printPartitionExtended d rounds a.1 a.2 n).isSome) :
    (printPartitionExtended d rounds' a.1 a.2 n).isSome := by
  induction rounds generalizing a n rounds' with
  | zero => cases h
  | succ rounds ih =>
    obtain ⟨rounds', rfl⟩ := Nat.exists_eq_add_of_le' (Nat.le_trans (Nat.le_add_left 1 rounds) hle)
    obtain ⟨n', hiff⟩ := printPartitionExtended_succ d a n
    rw [hiff] at h ⊢
    exact fun b hab => ih (Nat.le_of_succ_le_succ hle) (h b hab)

/-- Where no cycle can be reached, the walk ends with any number. -/
theorem print_of_not_reachesCycle (h : ¬Lib.ReachesCycle (PrintLink d) a) :
    ∃ rounds, ∀ n, (printPartitionExtended d rounds a.1 a.2 n).isSome := by
  have hacc := Lib.acc_iff_not_reachesCycle.2 h
  induction hacc with
  | intro a _ ih =>
    have hbelow : ∀ b, ∃ k, PrintLink d a b → ∀ n, (printPartitionExtended d k b.1 b.2 n).isSome := by
      intro b
      by_cases hab : PrintLink d a b
      · obtain ⟨k, hk⟩ := ih b hab fun hcyc => h (Lib.reachesCycle_iff.2 ⟨b, hab, hcyc⟩)
        exact ⟨k, fun _ => hk⟩
      · exact ⟨0, fun hab' => absurd hab' hab⟩
    choose k hk using hbelow
    obtain ⟨rounds, hrounds⟩ := (Set.finite_range k).bddAbove
    refine ⟨rounds + 1, fun n => ?_⟩
    obtain ⟨n', hiff⟩ := printPartitionExtended_succ d a n
    rw [hiff]
    exact fun b hab => printPartitionExtended_mono (hrounds ⟨b, rfl⟩) (hk b hab n')

/-! ### Looking up -/

/-- What the loop over a record finds: the entry with the number. -/
theorem lookupPartitions_inl_iff (d : BlockDev) (sector : UInt32) (part : Nat) (ps : List DosPartition) (n : Nat) :
    (∃ info, lookupPartitions d sector part ps n = .inl info) ↔
      ∃ before p behind, ps = before ++ p :: behind ∧ p.isUsable ∧ n + before.countP (·.counts sector) = part := by
  induction ps generalizing n with
  | nil => simp [lookupPartitions]
  | cons q ps ih =>
    rw [lookupPartitions]
    split
    next hfound =>
      obtain ⟨hboot, hused, rfl, hext⟩ := hfound
      exact iff_of_true ⟨_, rfl⟩ ⟨[], q, ps, rfl, ⟨hboot, hused, Bool.eq_false_iff.2 hext⟩, rfl⟩
    next hnot =>
      rw [ih]
      have hcount : ∀ before : List DosPartition, (if q.counts sector then n + 1 else n) + before.countP (·.counts sector) =
          n + (q :: before).countP (·.counts sector) := by
        intro before
        rw [countP_cons]
        split <;> omega
      constructor
      · rintro ⟨before, p, behind, rfl, hp, hnum⟩
        exact ⟨q :: before, p, behind, rfl, hp, by rw [← hcount, hnum]⟩
      · rintro ⟨before, p, behind, hps, hp, hnum⟩
        cases before with
        | nil =>
          cases hps
          exact absurd ⟨hp.1, hp.2.1, hnum, Bool.eq_false_iff.1 hp.2.2⟩ hnot
        | cons x before =>
          cases hps
          exact ⟨before, p, behind, rfl, hp, by rw [hcount, hnum]⟩

theorem lookupPartitions_inr {sector : UInt32} {ps : List DosPartition} {n' : Nat} (h : lookupPartitions d sector part ps n = .inr n') :
    n' = n + ps.countP (·.counts sector) := by
  induction ps generalizing n with
  | nil =>
    cases h
    rfl
  | cons q ps ih =>
    rw [lookupPartitions] at h
    split at h
    · cases h
    · rw [ih h, countP_cons]
      split <;> omega

theorem countingEntries_cons (r : UInt32 × List DosPartition) (records : List (UInt32 × List DosPartition)) :
    countingEntries (r :: records) = r.2.countP (·.counts r.1) + countingEntries records := by
  rw [countingEntries, map_cons, sum_cons, countingEntries]

/-- A look-up that goes on from a record: the number behind it, and what is asked of the partition that it meets. -/
theorem lookup_step (rounds : Nat) (hread : d.blockRead a.1 = some buffer) (hsig : hasDosSignature buffer = true)
    (hnone : lookupPartitions d a.1 part (dosPartitions buffer) n = .inr n')
    (hext : (dosPartitions buffer).find? DosPartition.isExtended = some p) :
    getPartitionInfoExtended d part (rounds + 1) a.1 a.2 n = getPartitionInfoExtended d part rounds (p.next a.1 a.2).1 (p.next a.1 a.2).2 n' ∧
      (MeetsPart d part a n ↔ MeetsPart d part (p.next a.1 a.2) n') ∧
      (Lib.ReachesCycle (LookupLink d) a ↔ Lib.ReachesCycle (LookupLink d) (p.next a.1 a.2)) := by
  refine ⟨?_, ?_, ?_⟩
  · rw [getPartitionInfoExtended, hread]
    simp only [hsig, if_true, hnone, hext]
  · have hn' := lookupPartitions_inr hnone
    have hcount : ∀ records, n + countingEntries ((a.1, dosPartitions buffer) :: records) = n' + countingEntries records := by
      intro records
      rw [hn', countingEntries_cons, Nat.add_assoc]
    constructor
    · rintro ⟨records, b, buffer', before, q, behind, hpath, hread', hsig', hps, hq, hnum⟩
      cases hpath with
      | here =>
        rw [hread] at hread'
        cases hread'
        have hfound := (lookupPartitions_inl_iff d a.1 part (dosPartitions buffer) n).2 ⟨before, q, behind, hps, hq, hnum⟩
        obtain ⟨info, hinfo⟩ := hfound
        rw [hnone] at hinfo
        cases hinfo
      | link hread'' _ hext' hpath =>
        rw [hread] at hread''
        cases hread''
        rw [hext] at hext'
        cases hext'
        exact ⟨_, b, buffer', before, q, behind, hpath, hread', hsig', hps, hq, by rw [← hcount, hnum]⟩
    · rintro ⟨records, b, buffer', before, q, behind, hpath, hread', hsig', hps, hq, hnum⟩
      exact ⟨_, b, buffer', before, q, behind, .link hread hsig hext hpath, hread', hsig', hps, hq, by rw [hcount, hnum]⟩
  · refine Lib.reachesCycle_of_unique ⟨buffer, hread, hsig, p, hext, rfl⟩ ?_
    rintro b ⟨buffer', hread', -, p', hext', rfl⟩
    rw [hread] at hread'
    cases hread'
    rw [hext] at hext'
    cases hext'
    rfl

/-- A look-up ends at once, or goes on from its record. -/
theorem lookup_cases (d : BlockDev) (part : Nat) (a : UInt32 × UInt32) (n : Nat) :
    ((∀ rounds, (getPartitionInfoExtended d part (rounds + 1) a.1 a.2 n).isSome) ∧ (MeetsPart d part a n ∨ ∀ b, ¬LookupLink d a b)) ∨
    ∃ buffer n' p, d.blockRead a.1 = some buffer ∧ hasDosSignature buffer = true ∧
      lookupPartitions d a.1 part (dosPartitions buffer) n = .inr n' ∧
      (dosPartitions buffer).find? DosPartition.isExtended = some p := by
  simp only [getPartitionInfoExtended]
  cases hread : d.blockRead a.1 with
  | none =>
    refine Or.inl ⟨fun _ => rfl, Or.inr ?_⟩
    rintro b ⟨buffer, hbuffer, -⟩
    rw [hread] at hbuffer
    cases hbuffer
  | some buffer =>
    dsimp only
    by_cases hsig : hasDosSignature buffer = true
    · simp only [if_pos hsig]
      cases hfound : lookupPartitions d a.1 part (dosPartitions buffer) n with
      | inl info =>
        obtain ⟨before, p, behind, hps, hp, hnum⟩ := (lookupPartitions_inl_iff d a.1 part (dosPartitions buffer) n).1 ⟨info, hfound⟩
        exact Or.inl ⟨fun _ => rfl, Or.inl ⟨[], a, buffer, before, p, behind, .here a, hread, hsig, hps, hp, hnum⟩⟩
      | inr n' =>
        cases hext : (dosPartitions buffer).find? DosPartition.isExtended with
        | some p => exact Or.inr ⟨buffer, n', p, rfl, hsig, hfound, hext⟩
        | none =>
          refine Or.inl ⟨fun _ => rfl, Or.inr ?_⟩
          rintro b ⟨buffer', hbuffer, -, p, hp, -⟩
          rw [hread] at hbuffer
          cases hbuffer
          rw [hext] at hp
          cases hp
    · simp only [if_neg hsig]
      refine Or.inl ⟨fun _ => rfl, Or.inr ?_⟩
      rintro b ⟨buffer', hbuffer, hsig', -⟩
      rw [hread] at hbuffer
      cases hbuffer
      exact hsig hsig'

theorem meetsPart_of_lookup (h : (getPartitionInfoExtended d part rounds a.1 a.2 n).isSome) :
    MeetsPart d part a n ∨ ¬Lib.ReachesCycle (LookupLink d) a := by
  induction rounds generalizing a n with
  | zero => cases h
  | succ rounds ih =>
    rcases lookup_cases d part a n with ⟨-, hmeets | hend⟩ | ⟨buffer, n', p, hread, hsig, hnone, hext⟩
    · exact Or.inl hmeets
    · exact Or.inr (Lib.not_reachesCycle_of_end hend)
    · obtain ⟨hgoes, hmeets, hcyc⟩ := lookup_step rounds hread hsig hnone hext
      rw [hgoes] at h
      rw [hmeets, hcyc]
      exact ih h

/-- A look-up that meets the number on its way ends. -/
theorem lookup_of_path (hpath : LookupPath d a records b) {buffer : Nat → UInt8}
    (hread : d.blockRead b.1 = some buffer) {before behind : List DosPartition} {p : DosPartition}
    (hps : dosPartitions buffer = before ++ p :: behind) (hp : p.isUsable)
    (hnum : n + countingEntries records + before.countP (·.counts b.1) = part) :
    ∃ rounds, (getPartitionInfoExtended d part rounds a.1 a.2 n).isSome := by
  induction hpath generalizing n with
  | here a =>
    rcases lookup_cases d part a n with ⟨h, -⟩ | ⟨buffer', n', p', hread', -, hnone, -⟩
    · exact ⟨1, h 0⟩
    · rw [hread] at hread'
      cases hread'
      obtain ⟨info, hinfo⟩ := (lookupPartitions_inl_iff d a.1 part (dosPartitions buffer) n).2 ⟨before, p, behind, hps, hp, hnum⟩
      rw [hnone] at hinfo
      cases hinfo
  | @link a b buffer' p' records hread' hsig hext hpath ih =>
    rcases lookup_cases d part a n with ⟨h, -⟩ | ⟨buffer'', n', p'', hread'', -, hnone, hext'⟩
    · exact ⟨1, h 0⟩
    · rw [hread'] at hread''
      cases hread''
      obtain ⟨rounds, hrounds⟩ := ih (n := n') hread (by
        rw [lookupPartitions_inr hnone, ← hnum, countingEntries_cons, Nat.add_assoc n])
      exact ⟨rounds + 1, by rw [(lookup_step rounds hread' hsig hnone hext).1]; exact hrounds⟩

theorem lookup_of_not_reachesCycle (h : ¬Lib.ReachesCycle (LookupLink d) a) :
    ∃ rounds, (getPartitionInfoExtended d part rounds a.1 a.2 n).isSome := by
  have hacc := Lib.acc_iff_not_reachesCycle.2 h
  induction hacc generalizing n with
  | intro a _ ih =>
    rcases lookup_cases d part a n with ⟨hends, -⟩ | ⟨buffer, n', p, hread, hsig, hnone, hext⟩
    · exact ⟨1, hends 0⟩
    · have hstep := fun rounds => lookup_step rounds hread hsig hnone hext
      obtain ⟨rounds, hrounds⟩ := ih (p.next a.1 a.2) ⟨buffer, hread, hsig, p, hext, rfl⟩ (n := n') ((hstep 0).2.2.not.1 h)
      exact ⟨rounds + 1, by rw [(hstep rounds).1]; exact hrounds⟩

end PartDosEndsAux

open PartDosEndsAux

/-- Printing ends on exactly the disks where the extended partitions of the records do not lead back to a record, and the look-up of a
number on those where the first ones do not, or where it meets the number. -/
theorem dos_walks_end_iff (d : BlockDev) (part : Nat) : ((∃ rounds, (printPartDos d rounds).isSome) ↔ ¬Lib.ReachesCycle (PrintLink d) (0, 0)) ∧
      ((∃ rounds, (getPartitionInfoDos d rounds part).isSome) ↔ MeetsPart d part (0, 0) 1 ∨ ¬Lib.ReachesCycle (LookupLink d) (0, 0)) := by
  constructor
  · constructor
    · rintro ⟨rounds, h⟩
      exact not_reachesCycle_of_print h
    · intro h
      obtain ⟨rounds, hends⟩ := print_of_not_reachesCycle h
      exact ⟨rounds, hends 1⟩
  · constructor
    · rintro ⟨rounds, h⟩
      exact meetsPart_of_lookup h
    · rintro (⟨records, b, buffer, before, p, behind, hpath, hread, -, hps, hp, hnum⟩ | h)
      · exact lookup_of_path hpath hread hps hp hnum
      · exact lookup_of_not_reachesCycle h

/-- A record with one extended partition, which starts at the record: `start4` is 0. -/
def selfLinkedRecord (i : Nat) : UInt8 :=
  if i = DOS_PART_TBL_OFFSET + 4 then 0x5 else if i = DOS_PART_MAGIC_OFFSET then 0x55 else if i = DOS_PART_MAGIC_OFFSET + 1 then 0xaa else 0

/-- A disk of such records. -/
def selfLinked : BlockDev := ⟨1, 0, fun _ => some selfLinkedRecord⟩

/-- Neither walk ends there. -/
theorem dos_walks_selfLinked : (¬∃ rounds, (printPartDos selfLinked rounds).isSome) ∧
    ¬∃ rounds, (getPartitionInfoDos selfLinked rounds 5).isSome := by
  have hunused : ∀ p ∈ dosPartitions selfLinkedRecord, p.sysInd = 0 ∨ p.isExtended = true := by decide
  constructor
  · rintro ⟨rounds, h⟩
    have hlink : PrintLink selfLinked (0, 0) (0, 0) :=
      ⟨selfLinkedRecord, rfl, by decide, dosPartitionAt selfLinkedRecord DOS_PART_TBL_OFFSET, mem_map.2 ⟨0, by decide, rfl⟩,
        by decide, by decide⟩
    exact not_reachesCycle_of_print (a := (0, 0)) h ⟨(0, 0), Relation.ReflTransGen.refl, Relation.TransGen.single hlink⟩
  · rintro ⟨rounds, h⟩
    have hlink : LookupLink selfLinked (0, 0) (0, 0) :=
      ⟨selfLinkedRecord, rfl, by decide, dosPartitionAt selfLinkedRecord DOS_PART_TBL_OFFSET, by rfl, by decide⟩
    rcases meetsPart_of_lookup (a := (0, 0)) h with ⟨_, _, buffer, before, p, behind, _, hread, _, hps, hp, _⟩ | hcyc
    · cases hread
      rcases hunused p (by rw [hps]; simp) with h0 | hext
      · exact hp.2.1 h0
      · exact Bool.false_ne_true (hp.2.2.symm.trans hext)
    · exact hcyc ⟨(0, 0), Relation.ReflTransGen.refl, Relation.TransGen.single hlink⟩

end

end UBoot

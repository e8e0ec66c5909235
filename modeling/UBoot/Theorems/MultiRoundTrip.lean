import Mathlib
import UBoot.Lib.Memory
import UBoot.Bootm

/-!
# A multi-file image gives its files back

The data is the table of the sizes, and the files with their padding. Both split at every file.
-/

namespace UBoot

open Lib List Option

/-- The data of an image in memory: the image ends below the top of the address space. -/
structure InMemory (mem : Nat → UInt8) (hdr : Nat) (data : List UInt8) : Prop where
  stored : Stored mem (hdr + IMAGE_HEADER_SIZE) data
  bound : hdr + IMAGE_HEADER_SIZE + data.length ≤ 2 ^ 32

namespace MultiAux

variable {fs : List UInt8 → Option (List UInt8)}
variable {n : List UInt8} {names : List (List UInt8)} {i : Nat}

/-! ## What mkimage writes -/

/-- The table of sizes. -/
def sizeTable (files : List (List UInt8)) : List UInt8 := files.flatMap (fun f => cpuToUimage f.length) ++ cpuToUimage 0

/-- The padding after a file. -/
def padding (f : List UInt8) : List UInt8 := if f.length % 4 ≠ 0 then List.replicate (4 - f.length % 4) 0 else []

/-- The files with the padding between them. -/
def bodies : List (List UInt8) → List UInt8
  | [] => []
  | [f] => f
  | f :: fs => f ++ padding f ++ bodies fs

theorem splitFile_sep (hn : chColon ∉ n) (rest : List UInt8) : splitFile (n ++ chColon :: rest) = (n, some rest) := by
  have hpos : ∀ c ∈ n, (c != chColon) = true := fun c hc => bne_iff_ne.2 fun h => hn (h ▸ hc)
  rw [splitFile, takeWhile_append_of_pos hpos, dropWhile_append_of_pos hpos]
  simp

theorem splitFile_last (hn : chColon ∉ n) : splitFile n = (n, none) := by
  have hpos : ∀ c ∈ n, (c != chColon) = true := fun c hc => bne_iff_ne.2 fun h => hn (h ▸ hc)
  rw [splitFile, takeWhile_eq_self_iff.2 hpos, dropWhile_eq_nil_iff.2 hpos]
  rfl

theorem writeSizes_eq (h : List.Forall₂ (fun n f => fs n = some f) names files)
    (hn : ∀ n ∈ names, chColon ∉ n) (hne : names ≠ []) (fuel : Nat) (hfuel : names.length ≤ fuel) :
    writeSizes fs fuel (some ([chColon].intercalate names)) = some (sizeTable files) := by
  induction h generalizing fuel with
  | nil => exact absurd rfl hne
  | @cons n f names files hf hrest ih =>
    obtain ⟨fuel, rfl⟩ : ∃ k, fuel = k + 1 := ⟨fuel - 1, by rw [length_cons] at hfuel; omega⟩
    have hcolon := hn n mem_cons_self
    cases names with
    | nil =>
      cases hrest
      rw [intercalate_singleton, writeSizes, splitFile_last hcolon]
      simp [hf, writeSizes, sizeTable]
    | cons m names =>
      have ih := ih (fun x hx => hn x (mem_cons_of_mem _ hx)) (cons_ne_nil _ _) fuel (by rw [length_cons] at hfuel; omega)
      rw [intercalate_cons_cons, append_assoc, singleton_append, writeSizes, splitFile_sep hcolon]
      simp [hf, ih, sizeTable]

/-- Without `-x` a file below `2 ^ 31` bytes is copied whole. -/
theorem copyFile_eq {f : List UInt8} (hf : fs n = some f) (hlen : f.length < 2 ^ 31) (pad : Bool) :
    copyFile false fs n pad = some (f ++ if pad then padding f else []) := by
  have hmod : f.length % 2 ^ 32 = f.length := Nat.mod_eq_of_lt (by omega)
  have hsize : ¬2 ^ 31 ≤ f.length := Nat.not_le.2 hlen
  rw [copyFile, hf]
  simp only [bind_eq_bind, bind_some, Bool.false_eq_true, false_and, if_false, Nat.sub_zero, hmod, hsize, drop_zero, take_length, padding]
  cases pad <;> simp

theorem copyFiles_eq (h : List.Forall₂ (fun n f => fs n = some f) names files)
    (hn : ∀ n ∈ names, chColon ∉ n) (hlen : ∀ f ∈ files, f.length < 2 ^ 31) (hne : names ≠ []) (fuel : Nat)
    (hfuel : names.length ≤ fuel) : copyFiles false fs fuel ([chColon].intercalate names) = some (bodies files) := by
  induction h generalizing fuel with
  | nil => exact absurd rfl hne
  | @cons n f names files hf hrest ih =>
    obtain ⟨fuel, rfl⟩ : ∃ k, fuel = k + 1 := ⟨fuel - 1, by rw [length_cons] at hfuel; omega⟩
    have hcolon := hn n mem_cons_self
    have hcopy := copyFile_eq hf (hlen f mem_cons_self)
    cases hrest with
    | nil =>
      rw [intercalate_singleton, copyFiles, splitFile_last hcolon]
      simp [hcopy, bodies]
    | @cons m g names files hg hrest =>
      have ih := ih (fun x hx => hn x (mem_cons_of_mem _ hx)) (fun x hx => hlen x (mem_cons_of_mem _ hx))
        (cons_ne_nil _ _) fuel (by rw [length_cons] at hfuel; omega)
      rw [intercalate_cons_cons, append_assoc, singleton_append, copyFiles, splitFile_sep hcolon]
      simp [hcopy, ih, bodies]

theorem length_names_le (names : List (List UInt8)) : names.length ≤ ([chColon].intercalate names).length + 1 := by
  induction names with
  | nil => exact Nat.zero_le _
  | cons n names ih =>
    cases names with
    | nil => simp
    | cons m names =>
      rw [intercalate_cons_cons, length_cons, length_append, length_append, length_singleton]
      omega

theorem writeMulti_eq (h : List.Forall₂ (fun n f => fs n = some f) names files)
    (hn : ∀ n ∈ names, chColon ∉ n) (hlen : ∀ f ∈ files, f.length < 2 ^ 31) (hne : names ≠ []) :
    writeMulti false fs ([chColon].intercalate names) = some (sizeTable files ++ bodies files) := by
  have hfuel := length_names_le names
  rw [writeMulti, writeSizes_eq h hn hne _ hfuel, copyFiles_eq h hn hlen hne _ hfuel]
  rfl

/-! ## Where the parts are -/

/-- The bytes before file `i`: the files before it, rounded up. -/
def filesBefore (files : List (List UInt8)) (i : Nat) : Nat := ((files.take i).map fun f => (f.length + 3) / 4 * 4).sum

theorem length_sizes (files : List (List UInt8)) : (files.flatMap fun f => cpuToUimage f.length).length = 4 * files.length := by
  induction files with
  | nil => rfl
  | cons f files ih =>
    rw [flatMap_cons, length_append, ih, length_cons]
    simp only [cpuToUimage, length_cons, length_nil]
    omega

theorem length_sizeTable (files : List (List UInt8)) : (sizeTable files).length = 4 * (files.length + 1) := by
  rw [sizeTable, length_append, length_sizes]
  rfl

theorem sizeTable_split (hi : i < files.length) :
    ∃ pre post, sizeTable files = pre ++ cpuToUimage files[i].length ++ post ∧ pre.length = 4 * i := by
  refine ⟨(files.take i).flatMap fun f => cpuToUimage f.length,
    ((files.drop (i + 1)).flatMap fun f => cpuToUimage f.length) ++ cpuToUimage 0, ?_, ?_⟩
  · have hsplit : files = files.take i ++ files[i] :: files.drop (i + 1) := by
      rw [← drop_eq_getElem_cons hi, take_append_drop]
    conv_lhs => rw [sizeTable, hsplit]
    rw [flatMap_append, flatMap_cons]
    simp only [append_assoc]
  · rw [length_sizes, length_take, Nat.min_eq_left (Nat.le_of_lt hi)]

theorem length_file_padding (f : List UInt8) : (f ++ padding f).length = (f.length + 3) / 4 * 4 := by
  rw [length_append, padding]
  split
  · rw [length_replicate]
    omega
  · simp only [length_nil]
    omega

theorem bodies_split (hi : i < files.length) :
    ∃ pre post, bodies files = pre ++ files[i] ++ post ∧ pre.length = filesBefore files i := by
  induction files generalizing i with
  | nil => cases hi
  | cons f files ih =>
    cases i with
    | zero =>
      cases files with
      | nil => exact ⟨[], [], by simp [bodies], rfl⟩
      | cons g files => exact ⟨[], padding f ++ bodies (g :: files), by simp [bodies], rfl⟩
    | succ i =>
      cases files with
      | nil => simp at hi
      | cons g files =>
        obtain ⟨pre, post, hsplit, hlen⟩ := ih (Nat.lt_of_succ_lt_succ hi)
        refine ⟨f ++ padding f ++ pre, post, ?_, ?_⟩
        · rw [bodies, hsplit]
          · simp
          · rintro ⟨⟩
        · rw [length_append, length_file_padding, hlen]
          simp [filesBefore]

/-! ## Reading the image -/

variable {mem : Nat → UInt8} {hdr : Nat} {files : List (List UInt8)}

theorem uimageToCpu_stored {a n : Nat} (hn : n < 2 ^ 32) (h : Stored mem a (cpuToUimage n)) : uimageToCpu mem a = n := by
  have h0 := h 0 _ rfl
  have h1 := h 1 _ rfl
  have h2 := h 2 _ rfl
  have h3 := h 3 _ rfl
  rw [Nat.add_zero] at h0
  rw [uimageToCpu, h0, h1, h2, h3]
  simp only [UInt8.toNat_ofNat']
  omega

theorem InMemory.part {pre part post : List UInt8} (h : InMemory mem hdr (pre ++ part ++ post)) :
    Stored mem (hdr + IMAGE_HEADER_SIZE + pre.length) part :=
  (stored_append.1 (stored_append.1 h.stored).1).2

theorem multiSize_slot {pre post : List UInt8} {n : Nat} (h : InMemory mem hdr (pre ++ cpuToUimage n ++ post))
    (hpre : pre.length = 4 * i) (hn : n < 2 ^ 32) : multiSize mem hdr i = n := by
  have hb := h.bound
  have hpart := InMemory.part h
  have hword : (cpuToUimage n).length = 4 := rfl
  rw [length_append, length_append, hpre, hword] at hb
  rw [hpre] at hpart
  have hdata : imageGetData hdr = hdr + IMAGE_HEADER_SIZE := add32_of_lt (by omega)
  rw [multiSize, hdata, add32_of_lt (by omega), uimageToCpu_stored hn hpart]

variable (h : InMemory mem hdr (sizeTable files ++ bodies files))
include h

theorem multiSize_file (hlen : ∀ f ∈ files, f.length < 2 ^ 31) (hi : i < files.length) : multiSize mem hdr i = files[i].length := by
  obtain ⟨pre, post, hsplit, hpre⟩ := sizeTable_split hi
  have hlt := hlen _ (getElem_mem hi)
  rw [hsplit, append_assoc] at h
  exact multiSize_slot h hpre (by omega)

theorem multiSize_end : multiSize mem hdr files.length = 0 :=
  multiSize_slot h (length_sizes files) (by decide)

theorem imageMultiCount_eq (hne : ∀ f ∈ files, f ≠ []) (hlen : ∀ f ∈ files, f.length < 2 ^ 31) (fuel : Nat)
    (hfuel : files.length < fuel) : imageMultiCount mem fuel hdr = some files.length := by
  have key (left i : Nat) (hi : i + left = files.length) (fuel : Nat) (hfuel : left < fuel) :
      multiCountLoop mem hdr fuel i = some files.length := by
    induction left generalizing i fuel with
    | zero =>
      obtain ⟨fuel, rfl⟩ : ∃ k, fuel = k + 1 := ⟨fuel - 1, by omega⟩
      obtain rfl : i = files.length := hi
      rw [multiCountLoop, if_pos (multiSize_end h)]
    | succ left ih =>
      obtain ⟨fuel, rfl⟩ : ∃ k, fuel = k + 1 := ⟨fuel - 1, by omega⟩
      have hlt : i < files.length := by omega
      have hpos := length_pos_iff.2 (hne _ (getElem_mem hlt))
      rw [multiCountLoop, multiSize_file h hlen hlt, if_neg (Nat.ne_of_gt hpos), ih (i + 1) (by omega) fuel (by omega)]
  exact key files.length 0 (Nat.zero_add _) fuel hfuel

theorem offset_eq (hlen : ∀ f ∈ files, f.length < 2 ^ 31) (hi : i ≤ files.length) (hb : filesBefore files i < 2 ^ 32) :
    (List.range i).foldl (fun offset i => add32 offset (roundUp4 (multiSize mem hdr i))) 0 = filesBefore files i := by
  induction i with
  | zero => rfl
  | succ i ih =>
    have hlt : i < files.length := hi
    have hstep : filesBefore files (i + 1) = filesBefore files i + (files[i].length + 3) / 4 * 4 := by
      rw [filesBefore, take_succ_eq_append_getElem hlt, map_append, sum_append]
      simp [filesBefore]
    have hround : roundUp4 files[i].length = (files[i].length + 3) / 4 * 4 := by
      have := hlen _ (getElem_mem hlt)
      rw [roundUp4, add32_of_lt (by omega)]
    rw [range_succ, foldl_append, ih (by omega) (by omega), foldl_cons, foldl_nil,
      multiSize_file h hlen hlt, hround, add32_of_lt (by omega), hstep]

end MultiAux

open MultiAux

/-- Whatever non-empty files of less than `2 ^ 31` bytes in total mkimage packs, the reader finds in the image in memory: their
number, for each its address and its length, and nothing for an index past the last. -/
theorem multi_round_trip (fs : List UInt8 → Option (List UInt8)) (names files : List (List UInt8)) (hnames : names ≠ [])
    (hcolon : ∀ n ∈ names, chColon ∉ n) (hfs : List.Forall₂ (fun n f => fs n = some f) names files)
    (hne : ∀ f ∈ files, f ≠ []) (htotal : (files.map List.length).sum < 2 ^ 31) :
    ∃ data, writeMulti false fs ([chColon].intercalate names) = some data ∧ ∀ mem hdr, InMemory mem hdr data → ∀ fuel, files.length < fuel →
        imageMultiCount mem fuel hdr = some files.length ∧
        (∀ i (hi : i < files.length), ∃ a, imageMultiGetimg mem fuel hdr i = some (a, files[i].length) ∧ Stored mem a files[i]) ∧
        ∀ i, files.length ≤ i → imageMultiGetimg mem fuel hdr i = some (0, 0) := by
  have hlen : ∀ f ∈ files, f.length < 2 ^ 31 := by
    intro f hf
    exact (le_sum_of_mem (mem_map_of_mem hf)).trans_lt htotal
  refine ⟨_, writeMulti_eq hfs hcolon hlen hnames, ?_⟩
  intro mem hdr h fuel hfuel
  have hcount := imageMultiCount_eq h hne hlen fuel hfuel
  have hb := h.bound
  rw [length_append, length_sizeTable] at hb
  refine ⟨hcount, ?_, ?_⟩
  · intro i hi
    obtain ⟨pre, post, hsplit, hpre⟩ := bodies_split hi
    have hbodies := congrArg List.length hsplit
    rw [length_append, length_append, hpre] at hbodies
    have hpos := length_pos_iff.2 (hne _ (getElem_mem hi))
    have hoffset := offset_eq h hlen (Nat.le_of_lt hi) (by omega)
    have hdata : imageGetData hdr = hdr + IMAGE_HEADER_SIZE := add32_of_lt (by omega)
    refine ⟨hdr + IMAGE_HEADER_SIZE + (files.length + 1) * 4 + filesBefore files i, ?_, ?_⟩
    · rw [imageMultiGetimg, hcount]
      simp only [bind_eq_bind, bind_some, if_pos hi, hoffset, hdata, multiSize_file h hlen hi]
      have himg : add32 (hdr + IMAGE_HEADER_SIZE) ((files.length + 1) * 4) = hdr + IMAGE_HEADER_SIZE + (files.length + 1) * 4 :=
        add32_of_lt (by omega)
      rw [himg, add32_of_lt (by omega)]
    · have hstored := (stored_append.1 h.stored).2
      rw [hsplit, length_sizeTable] at hstored
      have hfile := (stored_append.1 (stored_append.1 hstored).1).2
      rwa [hpre, Nat.mul_comm 4] at hfile
  · intro i hi
    rw [imageMultiGetimg, hcount]
    simp only [bind_eq_bind, bind_some, if_neg (Nat.not_lt.2 hi)]

/-- Two files of 1 and 2 bytes, `a` and `b`. -/
def twoFiles (name : List UInt8) : Option (List UInt8) :=
  if name = [0x61] then some [0x11] else if name = [0x62] then some [0x22, 0x23] else none

/-- `a:b` makes an image with the two files, and there is a memory that holds it. -/
theorem multi_round_trip_two : ∃ data, writeMulti false twoFiles [0x61, chColon, 0x62] = some data ∧
    ∃ mem, InMemory mem 0x1000 data ∧ imageMultiCount mem 3 0x1000 = some 2 ∧
      ∃ a, imageMultiGetimg mem 3 0x1000 1 = some (a, 2) ∧ Stored mem a [0x22, 0x23] := by
  have hfs : List.Forall₂ (fun n f => twoFiles n = some f) [[0x61], [0x62]] [[0x11], [0x22, 0x23]] :=
    .cons (by decide) (.cons (by decide) .nil)
  obtain ⟨data, hdata, hread⟩ := multi_round_trip twoFiles [[0x61], [0x62]] [[0x11], [0x22, 0x23]] (by decide) (by decide)
    hfs (by decide) (by decide)
  have hlen : data.length = 18 := by
    have : writeMulti false twoFiles ([chColon].intercalate [[0x61], [0x62]]) =
        some (sizeTable [[0x11], [0x22, 0x23]] ++ bodies [[0x11], [0x22, 0x23]]) := by decide
    rw [hdata] at this
    rw [some.inj this]
    rfl
  have hmem : InMemory (store (fun _ => 0) (0x1000 + IMAGE_HEADER_SIZE) data) 0x1000 data := by
    refine ⟨stored_store _ _ _, ?_⟩
    rw [hlen]
    decide
  obtain ⟨hcount, hget, -⟩ := hread _ _ hmem 3 (by decide)
  exact ⟨data, hdata, _, hmem, hcount, hget 1 (by decide)⟩

end UBoot

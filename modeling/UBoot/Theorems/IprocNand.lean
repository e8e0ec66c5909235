import UBoot.IprocNand
import Mathlib.Data.Nat.Bitwise

/-!
# What the iProc NAND driver programs is read back

`iproc_nand_page_program` does not advance `src_addr`, so each page gets the bytes of the first one. A page of which all bytes are 0xff is
left out before its address is tested, and `iproc_nand_page_read` tests the address of each page.
-/

namespace UBoot

open List

namespace Inand

open Lib

variable {inand : Inand} {o : NandDone} {src mem : Nat → UInt8} {flash : NandFlash} {addr len a n d s : Nat}
variable {flash' : NandFlash} {mem' : Nat → UInt8} {size : Nat} {t : Nat × NandFlash}

/-- Every command succeeds. -/
structure Succeeds (inand : Inand) (o : NandDone) : Prop where
  status : ∀ cmd a, o.status cmd a = NAND_STATUS_OK
  ecc : ∀ a, o.eccErrors a ≤ inand.eccStrength

/-- An address whose cache-sized unit has an even number is not refused. -/
def Aligned (a : Nat) : Prop := a / IPROC_FLASH_CACHE_SIZE % 2 = 0

theorem refused : NAND_PAGE_ALIGNMENT ≠ NAND_STATUS_OK := by decide

theorem cmdAddress_of_lt (h : a < 2 ^ 48) : cmdAddress a = a := by
  unfold cmdAddress
  omega

/-! ## A page is programmed -/

theorem and_erased (b : UInt8) : 0xff &&& b = b := by
  rw [← UInt8.toNat_inj, UInt8.toNat_and]
  exact (Nat.and_comm ..).trans (Nat.and_two_pow_sub_one_of_lt_two_pow b.toNat_lt)

/-- What is programmed: the cells from `a` on lose bits, and the blocks of these cells are touched. -/
structure Programmed (inand : Inand) (a n : Nat) (mem : Nat → UInt8) (flash flash' : NandFlash) : Prop where
  cells : ∀ x, flash'.cells x = if a ≤ x ∧ x < a + n then flash.cells x &&& mem (x - a) else flash.cells x
  touched : ∀ b ∈ flash'.touched, b ∈ flash.touched ∨ ∃ x, a ≤ x ∧ x < a + n ∧ x / inand.blockSize = b

theorem programmed_program (inand : Inand) (a : Nat) (cache : Nat → UInt8) (flash : NandFlash) :
    Programmed inand a 512 cache flash (inand.program a cache flash) := by
  refine ⟨fun x => rfl, fun b hb => ?_⟩
  rcases mem_cons.1 hb with rfl | hb
  · exact Or.inr ⟨a, Nat.le_refl a, Nat.lt_add_of_pos_right (by decide), rfl⟩
  · exact Or.inl hb

theorem Programmed.append {flash'' : NandFlash} (h : Programmed inand a n mem flash flash')
    (h' : Programmed inand (a + n) s mem' flash' flash'') (hmem : ∀ i, mem' i = mem (n + i)) :
    Programmed inand a (n + s) mem flash flash'' := by
  refine ⟨fun x => ?_, fun b hb => ?_⟩
  · rw [h'.cells x, h.cells x]
    by_cases h1 : a + n ≤ x ∧ x < a + n + s
    · rw [if_pos h1, if_neg (by omega), if_pos (by omega), hmem, show n + (x - (a + n)) = x - a by omega]
    · rw [if_neg h1]
      by_cases h2 : a ≤ x ∧ x < a + n
      · rw [if_pos h2, if_pos (by omega)]
      · rw [if_neg h2, if_neg (by omega)]
  · rcases h'.touched b hb with hb | ⟨x, h1, h2, h3⟩
    · rcases h.touched b hb with hb | ⟨x, h1, h2, h3⟩
      · exact Or.inl hb
      · exact Or.inr ⟨x, h1, by omega, h3⟩
    · exact Or.inr ⟨x, by omega, by omega, h3⟩

theorem programBuffers_spec (ho : Succeeds inand o) (h : a + 512 * n ≤ 2 ^ 48) (s : Nat) (flash : NandFlash) :
    ∃ flash', inand.programBuffers o mem n a s flash = (NAND_STATUS_OK, flash') ∧
      Programmed inand a (512 * n) (fun i => mem (s + i)) flash flash' := by
  induction n generalizing a s flash with
  | zero => exact ⟨flash, rfl, fun x => (if_neg (by omega)).symm, fun b hb => Or.inl hb⟩
  | succ n ih =>
    have hnext : (a + 512) % 2 ^ 64 = a + 512 := Nat.mod_eq_of_lt (by omega)
    obtain ⟨flash', heq, hp⟩ := ih (a := a + 512) (by omega) (s + 512) (inand.program a (fun i => mem (s + i)) flash)
    refine ⟨flash', ?_, ?_⟩
    · simp only [programBuffers, cmdAddress_of_lt (show a < 2 ^ 48 by omega), ho.status, ne_eq, not_true_eq_false, if_false,
        IPROC_FLASH_CACHE_SIZE, hnext]
      exact heq
    · rw [Nat.mul_succ, Nat.add_comm (512 * n)]
      exact (programmed_program ..).append hp fun i => by rw [Nat.add_assoc]

/-! ## A page is read -/

theorem readBuffers_spec (ho : Succeeds inand o) (h : a + 512 * n ≤ 2 ^ 48) (d : Nat) (mem : Nat → UInt8) :
    readBuffers o flash n a d mem = (NAND_STATUS_OK, store mem d ((List.range' a (512 * n)).map flash.cells)) := by
  induction n generalizing a d mem with
  | zero =>
    rw [readBuffers, Nat.mul_zero, range'_zero, map_nil, store_nil]
  | succ n ih =>
    have hstore := store_store mem d ((List.range' a 512).map flash.cells) ((List.range' (a + 512) (512 * n)).map flash.cells)
    rw [length_map, length_range', ← map_append, range'_append_1] at hstore
    have hnext : (a + 512) % 2 ^ 64 = a + 512 := Nat.mod_eq_of_lt (by omega)
    simp only [readBuffers, cmdAddress_of_lt (show a < 2 ^ 48 by omega), ho.status, ne_eq, not_true_eq_false, if_false,
      IPROC_FLASH_CACHE_SIZE, hnext]
    rw [ih (by omega), hstore, Nat.mul_succ, Nat.add_comm 512]

/-- As many buffers are read as the length asks for. -/
theorem numOfBuffers_eq (hn : 512 * n ≤ inand.pageSize) (h0 : 0 < n) : inand.numOfBuffers (512 * n) = n := by
  obtain ⟨k, hk, hpage⟩ := inand.pageSize_pow
  have hdvd : 512 ∣ inand.pageSize := by
    rw [hpage]
    exact Nat.pow_dvd_pow 2 hk
  obtain ⟨p, hp⟩ := hdvd
  unfold numOfBuffers IPROC_FLASH_CACHE_SIZE
  rw [hp] at hn ⊢
  rw [Nat.mul_div_cancel_left p (by decide)]
  split
  · have hfind : (List.range' 1 (p - 1)).find? (fun i => decide (512 * n ≤ i * 512)) = some n := by
      rw [find?_range'_eq_some]
      refine ⟨by simp; omega, by rw [mem_range'_1]; omega, fun j _ hj => by simp; omega⟩
    simp only [hfind, Option.getD_some]
  · simp only
    omega

/-! ## Page after page -/

/-- The range of a call: it starts with a page, its length is a multiple of 512 bytes, and it lies in a device that the controller can
address. -/
structure NandRange (inand : Inand) (size addr len : Nat) : Prop where
  pos : 0 < len
  len_lt : len < 2 ^ 32
  units : 512 ∣ len
  page : inand.pageSize ∣ addr
  inside : addr + len ≤ size
  size_le : size ≤ 2 ^ 48

theorem pageSize_pos (inand : Inand) : 0 < inand.pageSize := by
  obtain ⟨k, -, h⟩ := inand.pageSize_pow
  rw [h]
  exact Nat.two_pow_pos k

theorem blockSize_pos (inand : Inand) : 0 < inand.blockSize := by
  obtain ⟨k, -, h⟩ := inand.blockSize_pow
  rw [h]
  exact Nat.two_pow_pos k

theorem units_dvd_pageSize (inand : Inand) : 512 ∣ inand.pageSize := by
  obtain ⟨k, hk, h⟩ := inand.pageSize_pow
  rw [h]
  exact Nat.pow_dvd_pow 2 hk

theorem pageSize_dvd_pow (inand : Inand) : inand.pageSize ∣ 2 ^ 32 := by
  obtain ⟨k, hk, h⟩ := inand.blockSize_pow
  refine Nat.dvd_trans inand.pageSize_dvd ?_
  rw [h]
  exact Nat.pow_dvd_pow 2 (Nat.le_of_lt hk)

theorem exists_units (h : NandRange inand size addr len) (hd : inand.pageSize ∣ d) (hlt : d < len) :
    ∃ n, 0 < n ∧ min (len - d) inand.pageSize = 512 * n := by
  have hunits : 512 ∣ min (len - d) inand.pageSize := by
    rcases Nat.le_total (len - d) inand.pageSize with hle | hle
    · rw [Nat.min_eq_left hle]
      exact Nat.dvd_sub h.units (Nat.dvd_trans (units_dvd_pageSize inand) hd)
    · rw [Nat.min_eq_right hle]
      exact units_dvd_pageSize inand
  obtain ⟨n, hn⟩ := hunits
  have hpos := pageSize_pos inand
  exact ⟨n, by omega, hn⟩

/-- The pages up to `d` are programmed with the bytes of the first one. -/
structure Written (inand : Inand) (src : Nat → UInt8) (addr len d : Nat) (s : Nat × NandFlash) : Prop where
  page : inand.pageSize ∣ d
  start : s.1 = addr + d
  cells : ∀ x, x < len → s.2.cells (addr + x) = if x < d then src (x % inand.pageSize) else 0xff
  touched : ∀ b ∈ s.2.touched, ∃ x, addr ≤ x ∧ x < addr + len ∧ x / inand.blockSize = b

/-- The page at `d` is programmed, or it is left out. -/
def PageOk (inand : Inand) (src : Nat → UInt8) (addr len d : Nat) : Prop :=
  (inand.pageSize ≤ len - d ∧ ∀ i < inand.pageSize, src i = 0xff) ∨ Aligned (addr + d)

/-- Erasing the block that starts with a page leaves the pages before it alone. -/
theorem Written.erase (h : Written inand src addr len d (a, flash)) (hlt : d < len) (ha : a = inand.maskedAddr a) :
    Written inand src addr len d (a, (inand.blockErase o (inand.maskedAddr a) flash).2) := by
  have hbs := blockSize_pos inand
  have haddr : a = addr + d := h.start
  have hblock : a % 2 ^ 32 / inand.blockSize * inand.blockSize = a := ha.symm
  have hsmall : a < 2 ^ 32 := by
    have h1 := Nat.div_mul_le_self (a % 2 ^ 32) inand.blockSize
    have h2 := Nat.mod_lt a (Nat.two_pow_pos 32)
    omega
  have hstart : a / inand.blockSize * inand.blockSize = a := by
    rwa [Nat.mod_eq_of_lt hsmall] at hblock
  rw [← ha]
  simp only [blockErase, ← ha, cmdAddress_of_lt (show a < 2 ^ 48 by omega)]
  refine ⟨h.page, haddr, fun x hx => ?_, fun b hb => ?_⟩
  · simp only [Inand.erase]
    split
    · next hsame =>
      have hge : a ≤ addr + x := by
        rw [← hstart, ← hsame]
        exact Nat.div_mul_le_self ..
      rw [if_neg (by omega)]
    · exact h.cells x hx
  · rcases mem_cons.1 hb with rfl | hb
    · exact ⟨a, by omega, by omega, rfl⟩
    · exact h.touched b hb

theorem Written.programmed (hr : NandRange inand size addr len) (h : Written inand src addr len d (a, flash))
    (hlt : d < len) (hp : Programmed inand a (min (len - d) inand.pageSize) src flash flash') :
    Written inand src addr len (d + inand.pageSize) ((a + inand.pageSize) % 2 ^ 64, flash') := by
  have haddr : a = addr + d := h.start
  have hps := Nat.le_of_dvd (Nat.two_pow_pos 32) (pageSize_dvd_pow inand)
  have hin := hr.inside
  have hsize := hr.size_le
  refine ⟨Nat.dvd_add h.page (Nat.dvd_refl _), ?_, fun x hx => ?_, fun b hb => ?_⟩
  · simp only [haddr]
    omega
  · rw [hp.cells, h.cells x hx]
    by_cases h1 : d ≤ x ∧ x < d + inand.pageSize
    · have hmod : x % inand.pageSize = x - d := by
        obtain ⟨k, hk⟩ := h.page
        rw [show x = inand.pageSize * k + (x - d) by omega, Nat.mul_add_mod, Nat.mod_eq_of_lt (by omega)]
        omega
      rw [if_pos (by omega), if_neg (by omega), if_pos h1.2, and_erased, hmod, show addr + x - a = x - d by omega]
    · rw [if_neg (by omega)]
      by_cases h2 : x < d
      · rw [if_pos h2, if_pos (by omega)]
      · rw [if_neg h2, if_neg (by omega)]
  · rcases hp.touched b hb with hb | ⟨x, h1, h2, h3⟩
    · exact h.touched b hb
    · exact ⟨x, by omega, by omega, h3⟩

/-- A page goes right just if its address is not refused, or it is left out. -/
theorem Written.page_step (hr : NandRange inand size addr len) (ho : Succeeds inand o)
    (h : Written inand src addr len d t) (hlt : d < len) :
    (PageOk inand src addr len d → ∃ t', inand.programPage o src (min (len - d) inand.pageSize) t = .ok t' ∧
        Written inand src addr len (d + inand.pageSize) t') ∧
      (¬ PageOk inand src addr len d → ∃ e, inand.programPage o src (min (len - d) inand.pageSize) t = .error e) := by
  obtain ⟨a, flash⟩ := t
  have haddr : a = addr + d := h.start
  -- the flash once the block was erased, if the page starts one
  obtain ⟨flash₁, hflash₁, h₁⟩ : ∃ flash₁, (if a = inand.maskedAddr a then (inand.blockErase o (inand.maskedAddr a) flash).2 else flash) = flash₁ ∧
      Written inand src addr len d (a, flash₁) := by
    split
    · next ha => exact ⟨_, rfl, h.erase hlt ha⟩
    · exact ⟨_, rfl, h⟩
  simp only [programPage, hflash₁]
  by_cases hff : min (len - d) inand.pageSize = inand.pageSize ∧ ∀ i < min (len - d) inand.pageSize, src (0 + i) = 0xff
  · have hskip : inand.onePageProgram o src a 0 (min (len - d) inand.pageSize) flash₁ = (NAND_STATUS_OK, flash₁) := if_pos hff
    rw [hskip]
    refine ⟨fun _ => ⟨_, if_neg fun hne => hne rfl, h₁.programmed hr hlt ⟨fun x => ?_, fun b hb => Or.inl hb⟩⟩, fun hnot => absurd (Or.inl ?_) hnot⟩
    · -- what is left out is erased
      split
      · next hx =>
        have hcell := h₁.cells (x - addr) (by omega)
        rw [if_neg (by omega), show addr + (x - addr) = x by omega] at hcell
        have hsrc := hff.2 (x - a) (by omega)
        rw [Nat.zero_add] at hsrc
        rw [hcell, hsrc]
        rfl
      · rfl
    · obtain ⟨hlen, hall⟩ := hff
      rw [hlen] at hall
      exact ⟨by omega, fun i hi => by simpa only [Nat.zero_add] using hall i hi⟩
  · have hrest : inand.onePageProgram o src a 0 (min (len - d) inand.pageSize) flash₁ =
        if a / IPROC_FLASH_CACHE_SIZE % 2 = 1 then (NAND_PAGE_ALIGNMENT, flash₁)
        else inand.programBuffers o src (min (len - d) inand.pageSize / IPROC_FLASH_CACHE_SIZE) a 0 flash₁ := if_neg hff
    rw [hrest]
    by_cases hal : a / IPROC_FLASH_CACHE_SIZE % 2 = 1
    · rw [if_pos hal]
      refine ⟨fun hok => absurd hok ?_, fun _ => ⟨_, if_pos refused⟩⟩
      rintro (⟨hps, hall⟩ | heven)
      · exact hff ⟨by omega, fun i hi => by rw [Nat.zero_add]; exact hall i (by omega)⟩
      · rw [Aligned, ← haddr, hal] at heven
        exact absurd heven (by decide)
    · rw [if_neg hal]
      refine ⟨fun _ => ?_, fun hnot => absurd (Or.inr ?_) hnot⟩
      · obtain ⟨n, hn0, hn⟩ := exists_units hr h.page hlt
        have hin := hr.inside
        have hsize := hr.size_le
        obtain ⟨flash', heq, hp⟩ := programBuffers_spec ho (show a + 512 * n ≤ 2 ^ 48 by omega) 0 flash₁
        rw [hn, show IPROC_FLASH_CACHE_SIZE = 512 from rfl, Nat.mul_div_cancel_left n (by decide), heq]
        simp only [Nat.zero_add, ← hn] at hp
        exact ⟨_, if_neg fun hne => hne rfl, h₁.programmed hr hlt hp⟩
      · rw [Aligned, ← haddr]
        exact Nat.mod_two_ne_one.1 hal

/-! ## Page after page is read -/

structure ReadUpTo (inand : Inand) (flash : NandFlash) (mem : Nat → UInt8) (addr len d : Nat) (s : Nat × Nat × (Nat → UInt8)) : Prop where
  page : inand.pageSize ∣ d
  start : s.1 = addr + d
  dst : s.2.1 = d
  memory : s.2.2 = store mem 0 ((List.range' addr (min d len)).map flash.cells)

theorem ReadUpTo.page_step {t : Nat × Nat × (Nat → UInt8)} (hr : NandRange inand size addr len) (ho : Succeeds inand o)
    (h : ReadUpTo inand flash mem addr len d t) (hlt : d < len) :
    (Aligned (addr + d) → ∃ t', inand.readPage o flash (min (len - d) inand.pageSize) t = .ok t' ∧
        ReadUpTo inand flash mem addr len (d + inand.pageSize) t') ∧
      (¬ Aligned (addr + d) → ∃ e, inand.readPage o flash (min (len - d) inand.pageSize) t = .error e) := by
  obtain ⟨a, dst, mem₁⟩ := t
  obtain ⟨hpage, hstart, hdst, hmem⟩ := h
  simp only at hstart hdst hmem
  replace hdst := hdst.symm
  subst hstart hdst hmem
  by_cases hal : (addr + d) / IPROC_FLASH_CACHE_SIZE % 2 = 1
  · refine ⟨fun heven => ?_, fun _ => ?_⟩
    · rw [Aligned, hal] at heven
      exact absurd heven (by decide)
    · have hone (m : Nat → UInt8) : inand.onePageRead o flash (addr + d) d (min (len - d) inand.pageSize) m = (NAND_PAGE_ALIGNMENT, m) :=
        if_pos hal
      simp only [readPage, hone]
      exact ⟨_, if_pos refused⟩
  · refine ⟨fun _ => ?_, fun hnot => absurd (Nat.mod_two_ne_one.1 hal) hnot⟩
    obtain ⟨n, hn0, hn⟩ := exists_units hr hpage hlt
    have hin := hr.inside
    have hsize := hr.size_le
    have hps := Nat.le_of_dvd (Nat.two_pow_pos 32) (pageSize_dvd_pow inand)
    have hbuffers : inand.numOfBuffers (min (len - d) inand.pageSize) = n := by
      rw [hn]
      exact numOfBuffers_eq (by omega) hn0
    have hone : inand.onePageRead o flash (addr + d) d (min (len - d) inand.pageSize)
        (store mem 0 ((List.range' addr (min d len)).map flash.cells)) =
        (NAND_STATUS_OK, store mem 0 ((List.range' addr (min (d + inand.pageSize) len)).map flash.cells)) := by
      have hstore := store_store mem 0 ((List.range' addr d).map flash.cells) ((List.range' (addr + d) (512 * n)).map flash.cells)
      rw [length_map, length_range', ← map_append, range'_append_1, Nat.zero_add, ← hn,
        show d + min (len - d) inand.pageSize = min (d + inand.pageSize) len by omega] at hstore
      rw [onePageRead, if_neg hal, hbuffers, readBuffers_spec ho (by omega), Nat.min_eq_left (Nat.le_of_lt hlt), ← hn, hstore]
      exact (if_neg fun hne => hne rfl).trans (if_neg (Nat.not_lt.2 (ho.ecc _)))
    simp only [readPage, hone]
    refine ⟨_, if_neg fun hne => hne rfl, Nat.dvd_add hpage (Nat.dvd_refl _), ?_, rfl, rfl⟩
    simp only
    omega

/-! ## What is programmed is read back -/

/-- The cells of the range are erased, and no block was touched. -/
structure Erased (addr len : Nat) (flash : NandFlash) : Prop where
  cells : ∀ x, addr ≤ x → x < addr + len → flash.cells x = 0xff
  touched : flash.touched = []

/-- What is programmed is read back, nothing behind it is written, and no block is touched that holds none of it. -/
def ReadsBack (inand : Inand) (src : Nat → UInt8) (addr len : Nat) : Prop :=
  ∀ o flash, Succeeds inand o → Erased addr len flash → ∀ fuel flash',
    inand.pageProgram o src addr len fuel flash = some (NAND_STATUS_OK, flash') →
      (∀ dst, ∃ fuel', inand.pageRead o flash' addr len fuel' dst = some (NAND_STATUS_OK, store dst 0 ((List.range len).map src))) ∧
        ∀ b ∈ flash'.touched, ∃ x, addr ≤ x ∧ x < addr + len ∧ x / inand.blockSize = b

/-- The counter of what is written does not come round, and each page is left out or has an address that is not refused. -/
def Programs (inand : Inand) (src : Nat → UInt8) (addr len : Nat) : Prop :=
  len + inand.pageSize ≤ 2 ^ 32 ∧ ∀ d, inand.pageSize ∣ d → d < len → PageOk inand src addr len d

/-- Every page has an address that is not refused, and the bytes of each are those of the first one. -/
def Repeats (inand : Inand) (src : Nat → UInt8) (addr len : Nat) : Prop :=
  (∀ d, inand.pageSize ∣ d → d < len → Aligned (addr + d)) ∧ ∀ x, x < len → src x = src (x % inand.pageSize)

theorem programPage_error {e : Nat × NandFlash} (h : inand.programPage o src n t = .error e) : e.1 ≠ NAND_STATUS_OK := by
  obtain ⟨flash₁, hflash₁⟩ : ∃ flash₁, (if t.1 = inand.maskedAddr t.1 then (inand.blockErase o (inand.maskedAddr t.1) t.2).2 else t.2) = flash₁ :=
    ⟨_, rfl⟩
  simp only [programPage, hflash₁] at h
  split at h
  · next hne =>
    rw [← Except.error.inj h]
    exact hne
  · cases h

theorem readPage_error {e : Nat × (Nat → UInt8)} {t : Nat × Nat × (Nat → UInt8)} (h : inand.readPage o flash n t = .error e) :
    e.1 ≠ NAND_STATUS_OK := by
  unfold readPage at h
  simp only at h
  split at h
  · next hne =>
    rw [← Except.error.inj h]
    exact hne
  · cases h

/-- `iproc_nand_page_program` returns 0 just if the pages go right one after the other. -/
theorem pageProgram_ok_iff : (∃ fuel, inand.pageProgram o src addr len fuel flash = some (NAND_STATUS_OK, flash')) ↔
      len + inand.pageSize ≤ 2 ^ 32 ∧ ∃ a, Chunks inand.pageSize len (inand.programPage o src) 0 (addr, flash) (a, flash') := by
  have hiff (a : Nat) := chunkLoop_ok_iff len (inand.programPage o src) (addr, flash) (a, flash') (pageSize_dvd_pow inand)
  constructor
  · rintro ⟨fuel, h⟩
    obtain ⟨r, hloop, hr⟩ := Option.map_eq_some_iff.1 h
    cases r with
    | error e =>
      obtain ⟨_, _, hbody⟩ := exists_of_chunkLoop_error hloop
      exact absurd (congrArg Prod.fst hr) (programPage_error hbody)
    | ok t =>
      obtain ⟨a, flash''⟩ := t
      obtain rfl : flash'' = flash' := congrArg Prod.snd hr
      obtain ⟨hfit, hchunks⟩ := (hiff a).1 ⟨fuel, hloop⟩
      exact ⟨hfit, a, hchunks⟩
  · rintro ⟨hfit, a, hchunks⟩
    obtain ⟨fuel, hloop⟩ := (hiff a).2 ⟨hfit, hchunks⟩
    exact ⟨fuel, by rw [pageProgram, hloop]; rfl⟩

theorem pageRead_ok_iff {dst : Nat → UInt8} : (∃ fuel, inand.pageRead o flash addr len fuel dst = some (NAND_STATUS_OK, mem')) ↔
      len + inand.pageSize ≤ 2 ^ 32 ∧ ∃ a d, Chunks inand.pageSize len (inand.readPage o flash) 0 (addr, 0, dst) (a, d, mem') := by
  have hiff (a d : Nat) := chunkLoop_ok_iff len (inand.readPage o flash) (addr, 0, dst) (a, d, mem') (pageSize_dvd_pow inand)
  constructor
  · rintro ⟨fuel, h⟩
    obtain ⟨r, hloop, hr⟩ := Option.map_eq_some_iff.1 h
    cases r with
    | error e =>
      obtain ⟨_, _, hbody⟩ := exists_of_chunkLoop_error hloop
      exact absurd (congrArg Prod.fst hr) (readPage_error hbody)
    | ok t =>
      obtain ⟨a, d, mem''⟩ := t
      obtain rfl : mem'' = mem' := congrArg Prod.snd hr
      obtain ⟨hfit, hchunks⟩ := (hiff a d).1 ⟨fuel, hloop⟩
      exact ⟨hfit, a, d, hchunks⟩
  · rintro ⟨hfit, a, d, hchunks⟩
    obtain ⟨fuel, hloop⟩ := (hiff a d).2 ⟨hfit, hchunks⟩
    exact ⟨fuel, by rw [pageRead, hloop]; rfl⟩

theorem written_zero (src : Nat → UInt8) (hf : Erased addr len flash) : Written inand src addr len 0 (addr, flash) := by
  refine ⟨Nat.dvd_zero _, rfl, fun x hx => ?_, fun b hb => ?_⟩
  · rw [if_neg (Nat.not_lt_zero x)]
    exact hf.cells (addr + x) (by omega) (by omega)
  · rw [hf.touched] at hb
    cases hb

theorem written_of_chunks (hr : NandRange inand size addr len) (ho : Succeeds inand o)
    (hf : Erased addr len flash) (h : Chunks inand.pageSize len (inand.programPage o src) 0 (addr, flash) (a, flash')) :
    (∀ d, inand.pageSize ∣ d → d < len → PageOk inand src addr len d) ∧ ∃ d, len ≤ d ∧ Written inand src addr len d (a, flash') := by
  have hinv := h.invariant (P := Written inand src addr len) (Q := PageOk inand src addr len) (Nat.dvd_zero _) (written_zero src hf)
    fun d t t' hlt hw hbody => ?_
  · exact ⟨fun d hdvd => hinv.1 d hdvd (Nat.zero_le d), hinv.2⟩
  · obtain ⟨hgood, hbad⟩ := hw.page_step hr ho hlt
    by_cases hpage : PageOk inand src addr len d
    · obtain ⟨t'', hbody', hw'⟩ := hgood hpage
      obtain rfl := Except.ok.inj (hbody.symm.trans hbody')
      exact ⟨hpage, hw'⟩
    · obtain ⟨e, hbody'⟩ := hbad hpage
      exact nomatch hbody.symm.trans hbody'

theorem readUpTo_zero (flash : NandFlash) (mem : Nat → UInt8) (addr len : Nat) : ReadUpTo inand flash mem addr len 0 (addr, 0, mem) := by
  refine ⟨Nat.dvd_zero _, rfl, rfl, ?_⟩
  rw [Nat.zero_min, range'_zero, map_nil, store_nil]

theorem aligned_of_chunks (hr : NandRange inand size addr len) (ho : Succeeds inand o)
    (h : Chunks inand.pageSize len (inand.readPage o flash) 0 (addr, 0, mem) (a, d, mem')) :
    ∀ d, inand.pageSize ∣ d → d < len → Aligned (addr + d) := by
  have hinv := h.invariant (P := ReadUpTo inand flash mem addr len) (Q := fun d => Aligned (addr + d)) (Nat.dvd_zero _)
    (readUpTo_zero flash mem addr len) fun d t t' hlt hw hbody => ?_
  · exact fun d hdvd => hinv.1 d hdvd (Nat.zero_le d)
  · obtain ⟨hgood, hbad⟩ := hw.page_step hr ho hlt
    by_cases hpage : Aligned (addr + d)
    · obtain ⟨t'', hbody', hw'⟩ := hgood hpage
      obtain rfl := Except.ok.inj (hbody.symm.trans hbody')
      exact ⟨hpage, hw'⟩
    · obtain ⟨e, hbody'⟩ := hbad hpage
      exact nomatch hbody.symm.trans hbody'

theorem read_of_aligned (hr : NandRange inand size addr len) (ho : Succeeds inand o)
    (hal : ∀ d, inand.pageSize ∣ d → d < len → Aligned (addr + d)) (flash : NandFlash) (mem : Nat → UInt8) :
    ∃ a d, Chunks inand.pageSize len (inand.readPage o flash) 0 (addr, 0, mem) (a, d, store mem 0 ((List.range' addr len).map flash.cells)) := by
  obtain ⟨⟨a, d, mem'⟩, h⟩ := Chunks.exists (pageSize_pos inand) (readUpTo_zero flash mem addr len) fun d t hlt ht =>
    (ht.page_step hr ho hlt).1 (hal d ht.page hlt)
  have hinv := h.invariant (P := ReadUpTo inand flash mem addr len) (Q := fun _ => True) (Nat.dvd_zero _) (readUpTo_zero flash mem addr len)
    fun d t t' hlt ht hbody => ?_
  · obtain ⟨-, d', hle, ht⟩ := hinv
    have hmem : mem' = store mem 0 ((List.range' addr (min d' len)).map flash.cells) := ht.memory
    rw [Nat.min_eq_right hle] at hmem
    rw [hmem] at h
    exact ⟨a, d, h⟩
  · obtain ⟨t'', hbody', ht'⟩ := (ht.page_step hr ho hlt).1 (hal d ht.page hlt)
    obtain rfl := Except.ok.inj (hbody.symm.trans hbody')
    exact ⟨trivial, ht'⟩

theorem programmed_of_ok (hr : NandRange inand size addr len) (ho : Succeeds inand o) (hf : Erased addr len flash)
    (hok : ∀ d, inand.pageSize ∣ d → d < len → PageOk inand src addr len d) :
    ∃ a flash', Chunks inand.pageSize len (inand.programPage o src) 0 (addr, flash) (a, flash') := by
  obtain ⟨⟨a, flash'⟩, h⟩ := Chunks.exists (pageSize_pos inand) (written_zero src hf) fun d t hlt ht =>
    (ht.page_step hr ho hlt).1 (hok d ht.page hlt)
  exact ⟨a, flash', h⟩

theorem Written.cells_eq (h : Written inand src addr len d t) (hle : len ≤ d) :
    (List.range' addr len).map t.2.cells = (List.range len).map fun x => src (x % inand.pageSize) := by
  rw [range'_eq_map_range, map_map]
  refine map_congr_left fun x hx => ?_
  have hx := mem_range.1 hx
  rw [Function.comp_apply, h.cells x hx, if_pos (by omega)]

/-- The commands of a chip that works. -/
def allDone : NandDone := ⟨fun _ _ => NAND_STATUS_OK, fun _ => 0⟩

theorem succeeds_allDone (inand : Inand) : Succeeds inand allDone := ⟨fun _ _ => rfl, fun _ => Nat.zero_le _⟩

/-- `iproc_nand_page_program` returns 0 just if its counter does not come round and no page that is programmed is refused. -/
theorem pageProgram_returns_iff (h : NandRange inand size addr len) (ho : Succeeds inand o) (hf : Erased addr len flash) :
    (∃ fuel flash', inand.pageProgram o src addr len fuel flash = some (NAND_STATUS_OK, flash')) ↔ Programs inand src addr len := by
  constructor
  · rintro ⟨fuel, flash', hrun⟩
    obtain ⟨hfit, a, hchunks⟩ := pageProgram_ok_iff.1 ⟨fuel, hrun⟩
    exact ⟨hfit, (written_of_chunks h ho hf hchunks).1⟩
  · rintro ⟨hfit, hok⟩
    obtain ⟨a, flash', hchunks⟩ := programmed_of_ok h ho hf hok
    obtain ⟨fuel, hrun⟩ := pageProgram_ok_iff.2 ⟨hfit, a, hchunks⟩
    exact ⟨fuel, flash', hrun⟩

theorem repeats_of_readsBack (h : NandRange inand size addr len) (hp : Programs inand src addr len)
    (H : ReadsBack inand src addr len) : Repeats inand src addr len := by
  -- all cells are erased
  have hf : Erased addr len ⟨fun _ => 0xff, []⟩ := ⟨fun _ _ _ => rfl, rfl⟩
  have ho := succeeds_allDone inand
  obtain ⟨fuel, flash', hrun⟩ := (pageProgram_returns_iff h ho hf).2 hp
  obtain ⟨hread, -⟩ := H allDone _ ho hf fuel flash' hrun
  obtain ⟨-, a, hchunks⟩ := pageProgram_ok_iff.1 ⟨fuel, hrun⟩
  obtain ⟨-, d, hle, hw⟩ := written_of_chunks h ho hf hchunks
  obtain ⟨-, a', d', hdst⟩ := pageRead_ok_iff.1 (hread fun _ => 0)
  have hal := aligned_of_chunks h ho hdst
  refine ⟨hal, fun x hx => ?_⟩
  obtain ⟨a'', d'', hcells⟩ := read_of_aligned h ho hal flash' fun _ => 0
  have hmem := congrArg (fun t : Nat × Nat × (Nat → UInt8) => t.2.2 (0 + x)) (hdst.deterministic hcells)
  simp only [hw.cells_eq hle] at hmem
  rwa [stored_store _ 0 ((List.range len).map src) x (src x) (by simp [hx]),
    stored_store _ 0 ((List.range len).map fun x => src (x % inand.pageSize)) x (src (x % inand.pageSize)) (by simp [hx])] at hmem

/-- What was programmed is read back just if no page is refused and each has the bytes of the first one. -/
theorem pageProgram_reads_back_iff {size : Nat} (h : NandRange inand size addr len) : (∀ o flash, Succeeds inand o → Erased addr len flash →
        ((∃ fuel flash', inand.pageProgram o src addr len fuel flash = some (NAND_STATUS_OK, flash')) ↔ Programs inand src addr len)) ∧
      (ReadsBack inand src addr len ↔ (Programs inand src addr len → Repeats inand src addr len)) := by
  refine ⟨fun o flash ho hf => pageProgram_returns_iff h ho hf, fun H hp => repeats_of_readsBack h hp H, ?_⟩
  intro H o flash ho hf fuel flash' hrun
  obtain ⟨hfit, a, hchunks⟩ := pageProgram_ok_iff.1 ⟨fuel, hrun⟩
  obtain ⟨hok, d, hle, hw⟩ := written_of_chunks h ho hf hchunks
  obtain ⟨hal, hsame⟩ := H ⟨hfit, hok⟩
  refine ⟨fun dst => ?_, hw.touched⟩
  obtain ⟨a', d', hread⟩ := read_of_aligned h ho hal flash' dst
  rw [hw.cells_eq hle, map_congr_left fun x hx => (hsame x (mem_range.1 hx)).symm] at hread
  exact pageRead_ok_iff.2 ⟨hfit, a', d', hread⟩

/-- A chip of `iproc_chip_list`: pages of 2 KiB in blocks of 128 KiB. -/
def mt29f2g08abaea : Inand := ⟨2048, 0x020000, 4, ⟨11, by decide, rfl⟩, ⟨17, by decide, rfl⟩, by decide⟩

/-- A part of a page behind 4 GiB. -/
theorem pageProgram_reads_back_part : ReadsBack mt29f2g08abaea (fun i => UInt8.ofNat i) (2 ^ 32) 1536 := by
  have hrange : NandRange mt29f2g08abaea (2 ^ 33) (2 ^ 32) 1536 := ⟨by decide, by decide, by decide, by decide, by decide, by decide⟩
  refine (pageProgram_reads_back_iff hrange).2.2 fun _ => ⟨fun d hd _ => ?_, fun x hx => ?_⟩
  · obtain ⟨k, rfl⟩ := hd
    simp only [mt29f2g08abaea, Aligned, IPROC_FLASH_CACHE_SIZE]
    omega
  · rw [show x % mt29f2g08abaea.pageSize = x from Nat.mod_eq_of_lt (Nat.lt_trans hx (by decide))]

/-- Of two pages the second one gets the bytes of the first. -/
theorem pageProgram_two_pages : NandRange mt29f2g08abaea (2 ^ 28) 0 4096 ∧
    ¬ ReadsBack mt29f2g08abaea (fun i => if i < 2048 then 1 else 2) 0 4096 := by
  have hrange : NandRange mt29f2g08abaea (2 ^ 28) 0 4096 := ⟨by decide, by decide, by decide, by decide, by decide, by decide⟩
  refine ⟨hrange, fun H => ?_⟩
  have hp : Programs mt29f2g08abaea (fun i => if i < 2048 then 1 else 2) 0 4096 := by
    refine ⟨by decide, fun d hd _ => Or.inr ?_⟩
    obtain ⟨k, rfl⟩ := hd
    simp only [mt29f2g08abaea, Aligned, IPROC_FLASH_CACHE_SIZE]
    omega
  exact absurd ((repeats_of_readsBack hrange hp H).2 2048 (by decide)) (by decide)

end Inand

end UBoot

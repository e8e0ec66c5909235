import UBoot.Update

/-!
# Protection and the automatic update

`update_flash_protect` brings its end address down to the end of the first bank.
-/

namespace UBoot

open List

namespace Update

variable {prot addrFirst addrLast sp maxSect bank : Nat} {saved : Nat → Nat} {info : FlashInfo} {infos : List FlashInfo}
variable {i : Nat} {written : Option (Nat × Nat × Nat)}

/-! ## One bank -/

/-- Sector `i` begins in the range. -/
def InRange (addrFirst addrLast : Nat) (info : FlashInfo) (i : Nat) : Prop := addrFirst ≤ info.start i ∧ info.start i ≤ addrLast

instance : Decidable (InRange addrFirst addrLast info i) := inferInstanceAs (Decidable (_ ∧ _))

/-- `saved_prot_info` after `n` sectors of a bank. -/
def savedAfter (prot addrFirst addrLast sp : Nat) (saved : Nat → Nat) (info : FlashInfo) (n k : Nat) : Nat :=
  if prot = 0 ∧ sp ≤ k ∧ k < sp + n ∧ InRange addrFirst addrLast info (k - sp) then info.protect (k - sp) else saved k

/-- The protection after `n` sectors of a bank. -/
def protectAfter (prot sp : Nat) (saved : Nat → Nat) (info : FlashInfo) (n i : Nat) : Nat :=
  if i < n ∧ saved (sp + i) = 1 then prot else info.protect i

/-- One more sector changes `saved_prot_info` at its own place. -/
theorem savedAfter_succ (prot addrFirst addrLast sp : Nat) (saved : Nat → Nat) (info : FlashInfo) (n : Nat) :
    savedAfter prot addrFirst addrLast sp saved info (n + 1) =
      if prot = 0 ∧ addrFirst ≤ info.start n ∧ info.start n ≤ addrLast then
        Function.update (savedAfter prot addrFirst addrLast sp saved info n) (sp + n) (info.protect n)
      else savedAfter prot addrFirst addrLast sp saved info n := by
  funext k
  by_cases hk : k = sp + n
  · subst hk
    have hnot : ¬(prot = 0 ∧ sp ≤ sp + n ∧ sp + n < sp + n ∧ InRange addrFirst addrLast info (sp + n - sp)) := fun h => by omega
    rw [savedAfter, Nat.add_sub_cancel_left]
    by_cases hin : prot = 0 ∧ addrFirst ≤ info.start n ∧ info.start n ≤ addrLast
    · rw [if_pos ⟨hin.1, by omega, by omega, hin.2⟩, if_pos hin, Function.update_self]
    · rw [if_neg fun h => hin ⟨h.1, h.2.2.2⟩, if_neg hin, savedAfter, if_neg hnot]
  · have hsame : savedAfter prot addrFirst addrLast sp saved info (n + 1) k = savedAfter prot addrFirst addrLast sp saved info n k :=
      if_congr (and_congr_right fun _ => and_congr_right fun _ => and_congr_left fun _ => by omega) rfl rfl
    rw [hsame]
    split
    · rw [Function.update_of_ne hk]
    · rfl

/-- One more sector is protected or not at its own place. -/
theorem protectAfter_succ (prot addrFirst addrLast sp : Nat) (saved : Nat → Nat) (info : FlashInfo) (n : Nat) :
    protectAfter prot sp (savedAfter prot addrFirst addrLast sp saved info (n + 1)) info (n + 1) =
      if savedAfter prot addrFirst addrLast sp saved info (n + 1) (sp + n) = 1 then
        Function.update (protectAfter prot sp (savedAfter prot addrFirst addrLast sp saved info n) info n) n prot
      else protectAfter prot sp (savedAfter prot addrFirst addrLast sp saved info n) info n := by
  funext i
  by_cases hi : i = n
  · subst hi
    unfold protectAfter
    split
    next h => rw [if_pos h.2, Function.update_self]
    next h => rw [if_neg fun h' => h ⟨Nat.lt_succ_self i, h'⟩, if_neg fun h' => Nat.lt_irrefl i h'.1]
  · have hsaved : savedAfter prot addrFirst addrLast sp saved info (n + 1) (sp + i) = savedAfter prot addrFirst addrLast sp saved info n (sp + i) :=
      if_congr (and_congr_right fun _ => and_congr_right fun _ => and_congr_left fun _ => by omega) rfl rfl
    have hsame : protectAfter prot sp (savedAfter prot addrFirst addrLast sp saved info (n + 1)) info (n + 1) i =
        protectAfter prot sp (savedAfter prot addrFirst addrLast sp saved info n) info n i :=
      if_congr (by rw [hsaved]; exact and_congr_left fun _ => by omega) rfl rfl
    rw [hsame]
    split
    · rw [Function.update_of_ne hi]
    · rfl

/-- The inner loop, by induction on the number of sectors. -/
theorem foldl_protectSector (n : Nat) : (List.range n).foldl (updateFlashProtectSector prot addrFirst addrLast sp) ⟨saved, info⟩ =
      ⟨savedAfter prot addrFirst addrLast sp saved info n,
        { info with protect := protectAfter prot sp (savedAfter prot addrFirst addrLast sp saved info n) info n }⟩ := by
  induction n with
  | zero =>
    have hsaved : savedAfter prot addrFirst addrLast sp saved info 0 = saved := funext fun k => if_neg fun h => by omega
    have hprotect : protectAfter prot sp saved info 0 = info.protect := funext fun i => if_neg fun h => Nat.not_lt_zero i h.1
    rw [hsaved, hprotect]
    rfl
  | succ n ih =>
    have hread : protectAfter prot sp (savedAfter prot addrFirst addrLast sp saved info n) info n n = info.protect n :=
      if_neg fun h => Nat.lt_irrefl n h.1
    rw [range_succ, foldl_append, ih, foldl_cons, foldl_nil, protectAfter_succ]
    simp only [updateFlashProtectSector, hread, ← savedAfter_succ]
    split
    · rfl
    · rfl

/-! ## All banks -/

/-- The bank without the protection of the sectors of the range. -/
def cleared (addrFirst addrLast : Nat) (info : FlashInfo) : FlashInfo :=
  { info with
    protect := fun i => if i < info.sectorCount ∧ InRange addrFirst addrLast info i ∧ info.protect i = 1 then 0 else info.protect i }

/-- The addresses that `update_flash_protect` takes for a bank. -/
def bankFirst (addrFirst : Nat) (info : FlashInfo) : Nat := if addrFirst < info.start 0 then info.start 0 else addrFirst
def bankLast (addrLast : Nat) (info : FlashInfo) : Nat :=
  if sub32 (add32 (info.start 0) info.size) 1 < addrLast then sub32 (add32 (info.start 0) info.size) 1 else addrLast

theorem bankLast_le (addrLast : Nat) (info : FlashInfo) : bankLast addrLast info ≤ addrLast := by
  unfold bankLast
  split
  next h => exact Nat.le_of_lt h
  next => exact Nat.le_refl _

/-- `saved_prot_info` behind a bank. -/
def savedBank (prot addrFirst addrLast sp : Nat) (saved : Nat → Nat) (info : FlashInfo) : Nat → Nat :=
  savedAfter prot (bankFirst addrFirst info) (bankLast addrLast info) sp saved info info.sectorCount

theorem protectBanks_cons (h : info.sectorCount ≠ 0) : updateFlashProtectBanks maxSect prot (info :: infos) bank addrFirst addrLast saved =
      let r := updateFlashProtectBanks maxSect prot infos (bank + 1) (bankFirst addrFirst info) (bankLast addrLast info)
        (savedBank prot addrFirst addrLast (bank * maxSect) saved info)
      ({ info with
          protect := protectAfter prot (bank * maxSect) (savedBank prot addrFirst addrLast (bank * maxSect) saved info) info
            info.sectorCount } :: r.1, r.2) := by
  rw [updateFlashProtectBanks, if_neg h]
  simp only [foldl_protectSector]
  rfl

/-- Banks behind the end address with nothing saved are left alone. -/
theorem protectBanks_behind (hbehind : ∀ info ∈ infos, ∀ i < info.sectorCount, addrLast < info.start i)
    (hsaved : ∀ k, bank * maxSect ≤ k → saved k ≠ 1) :
    updateFlashProtectBanks maxSect prot infos bank addrFirst addrLast saved = (infos, saved) := by
  induction infos generalizing bank addrFirst addrLast saved with
  | nil => rfl
  | cons info infos ih =>
    obtain ⟨hinfo, hbehind⟩ := forall_mem_cons.mp hbehind
    by_cases hcount : info.sectorCount = 0
    · rw [updateFlashProtectBanks, if_pos hcount]
    · have hle := bankLast_le addrLast info
      have hsame : savedBank prot addrFirst addrLast (bank * maxSect) saved info = saved := by
        funext k
        refine if_neg fun h => ?_
        have := hinfo (k - bank * maxSect) (by omega)
        have := h.2.2.2.2
        omega
      have hprotect : protectAfter prot (bank * maxSect) saved info info.sectorCount = info.protect :=
        funext fun i => if_neg fun h => hsaved _ (Nat.le_add_right _ _) h.2
      rw [protectBanks_cons hcount, hsame, hprotect, ih (fun info' hmem i hi => Nat.lt_of_le_of_lt hle (hbehind info' hmem i hi))
        (fun k hk => hsaved k (Nat.le_trans (Nat.mul_le_mul_right _ (Nat.le_succ bank)) hk))]

/-- A bank that exists: its sectors are in it, and it does not wrap around. -/
structure Bank (maxSect : Nat) (info : FlashInfo) : Prop where
  sectors : 0 < info.sectorCount ∧ info.sectorCount ≤ maxSect
  size : 0 < info.size
  top : info.start 0 + info.size ≤ 2 ^ 32
  inside : ∀ i < info.sectorCount, info.start 0 ≤ info.start i ∧ info.start i < info.start 0 + info.size

theorem inRange_bank (addrFirst addrLast : Nat) (hbank : Bank maxSect info) (hi : i < info.sectorCount) :
    InRange (bankFirst addrFirst info) (bankLast addrLast info) info i ↔ InRange addrFirst addrLast info i := by
  obtain ⟨hfirst, hlast⟩ := hbank.inside i hi
  have hend := (le_last_iff (a := info.start i) (Nat.add_pos_right (info.start 0) hbank.size) hbank.top).mpr hlast
  unfold InRange bankFirst bankLast
  split <;> split <;> omega

theorem bankLast_lt (addrLast : Nat) (hbank : Bank maxSect info) : bankLast addrLast info < info.start 0 + info.size := by
  have hend := le_last_iff (a := bankLast addrLast info) (Nat.add_pos_right (info.start 0) hbank.size) hbank.top
  refine hend.mp ?_
  unfold bankLast
  split
  next => exact Nat.le_refl _
  next h => exact Nat.not_lt.mp h

/-- The banks behind the first one begin behind its end. -/
def Behind (info : FlashInfo) (infos : List FlashInfo) : Prop :=
  ∀ info' ∈ infos, ∀ i < info'.sectorCount, info.start 0 + info.size ≤ info'.start i

theorem unprotect_eq (hbank : Bank maxSect info) (hbehind : Behind info infos) (addrFirst addrLast : Nat) :
    ∃ saved, updateFlashProtectBanks maxSect 0 (info :: infos) 0 addrFirst addrLast (fun _ => 0) =
        (cleared addrFirst addrLast info :: infos, saved) ∧
      (∀ i < info.sectorCount, saved i = 1 ↔ InRange addrFirst addrLast info i ∧ info.protect i = 1) ∧ ∀ k, maxSect ≤ k → saved k ≠ 1 := by
  generalize hsaved : savedBank 0 addrFirst addrLast (0 * maxSect) (fun _ => 0) info = saved
  have hone : ∀ i < info.sectorCount, saved i = 1 ↔ InRange addrFirst addrLast info i ∧ info.protect i = 1 := by
    intro i hi
    have hin := inRange_bank addrFirst addrLast hbank hi
    rw [← hsaved, savedBank, savedAfter, Nat.zero_mul, Nat.sub_zero]
    split
    next h => exact (and_iff_right (hin.mp h.2.2.2)).symm
    next h => exact iff_of_false Nat.zero_ne_one fun h' => h ⟨rfl, Nat.zero_le i, by omega, hin.mpr h'.1⟩
  have hrest : ∀ k, maxSect ≤ k → saved k ≠ 1 := by
    intro k hk
    have hmax := hbank.sectors.2
    rw [← hsaved, savedBank, savedAfter, if_neg fun h => by omega]
    exact Nat.zero_ne_one
  have hprotect : { info with protect := protectAfter 0 (0 * maxSect) saved info info.sectorCount } = cleared addrFirst addrLast info := by
    rw [cleared]
    congr 1
    funext i
    rw [protectAfter, Nat.zero_mul, Nat.zero_add]
    exact if_congr (and_congr_right fun hi => hone i hi) rfl rfl
  refine ⟨saved, ?_, hone, hrest⟩
  rw [protectBanks_cons (Nat.ne_of_gt hbank.sectors.1), hsaved, hprotect]
  rw [protectBanks_behind (fun info' hmem i hi => Nat.lt_of_lt_of_le (bankLast_lt addrLast hbank) (hbehind info' hmem i hi))
    (fun k hk => hrest k (by omega))]

/-- Protecting again brings back what was cleared. -/
theorem protect_eq (hbank : Bank maxSect info) (hbehind : Behind info infos) (addrFirst addrLast : Nat)
    (hone : ∀ i < info.sectorCount, saved i = 1 ↔ InRange addrFirst addrLast info i ∧ info.protect i = 1)
    (hrest : ∀ k, maxSect ≤ k → saved k ≠ 1) :
    updateFlashProtectBanks maxSect 1 (cleared addrFirst addrLast info :: infos) 0 addrFirst addrLast saved = (info :: infos, saved) := by
  have hcount : (cleared addrFirst addrLast info).sectorCount ≠ 0 := Nat.ne_of_gt hbank.sectors.1
  have hsame : savedBank 1 addrFirst addrLast (0 * maxSect) saved (cleared addrFirst addrLast info) = saved :=
    funext fun k => by rw [savedBank, savedAfter, if_neg fun h => Nat.one_ne_zero h.1]
  have hprotect : protectAfter 1 (0 * maxSect) saved (cleared addrFirst addrLast info) (cleared addrFirst addrLast info).sectorCount =
      info.protect := by
    funext i
    rw [protectAfter, Nat.zero_mul, Nat.zero_add]
    split
    next h => exact ((hone i h.1).mp h.2).2.symm
    next h => exact if_neg fun h' => h ⟨h'.1, (hone i h'.1).mpr h'.2⟩
  have hlast : bankLast addrLast (cleared addrFirst addrLast info) < info.start 0 + info.size := by
    have hlt := bankLast_lt addrLast hbank
    exact hlt
  rw [protectBanks_cons hcount, hsame, hprotect]
  rw [protectBanks_behind (fun info' hmem i hi => Nat.lt_of_lt_of_le hlast (hbehind info' hmem i hi)) (fun k hk => hrest k (by omega))]
  rfl

/-! ## The whole of `update_flash` -/

/-- The banks of `flash_info`: those that exist come first, one behind the other. -/
structure Layout (maxSect : Nat) where
  present : List FlashInfo
  absent : List FlashInfo
  bank : ∀ info ∈ present, Bank maxSect info
  empty : ∀ info ∈ absent, info.sectorCount = 0
  contiguous : present.IsChain fun info info' => info'.start 0 = info.start 0 + info.size

def Layout.banks (l : Layout maxSect) : List FlashInfo := l.present ++ l.absent

/-- A protected sector of some banks begins in the range. -/
def ProtectedIn (addrFirst addrLast : Nat) (infos : List FlashInfo) : Prop :=
  ∃ info ∈ infos, ∃ i < info.sectorCount, InRange addrFirst addrLast info i ∧ info.protect i = 1

theorem protectedIn_cons : ProtectedIn addrFirst addrLast (info :: infos) ↔
    (∃ i < info.sectorCount, InRange addrFirst addrLast info i ∧ info.protect i = 1) ∨ ProtectedIn addrFirst addrLast infos := by
  simp only [ProtectedIn, mem_cons, exists_eq_or_imp]

theorem cleared_eq_iff : cleared addrFirst addrLast info = info ↔
    ¬∃ i < info.sectorCount, InRange addrFirst addrLast info i ∧ info.protect i = 1 := by
  constructor
  · rintro h ⟨i, hi, hin, hprotect⟩
    have hclear : (cleared addrFirst addrLast info).protect i = 0 := if_pos ⟨hi, hin, hprotect⟩
    rw [h, hprotect] at hclear
    exact Nat.one_ne_zero hclear
  · intro h
    have hsame : (cleared addrFirst addrLast info).protect = info.protect := funext fun i => if_neg fun h' => h ⟨i, h'⟩
    cases info
    simp only [cleared] at hsame ⊢
    rw [hsame]

theorem map_cleared_eq_iff : infos.map (cleared addrFirst addrLast) = infos ↔ ¬ProtectedIn addrFirst addrLast infos := by
  induction infos with
  | nil => exact iff_of_true rfl fun ⟨_, h, _⟩ => not_mem_nil h
  | cons info infos ih => rw [map_cons, List.cons.injEq, cleared_eq_iff, ih, protectedIn_cons, not_or]

theorem behind_of_contiguous (hbank : ∀ info' ∈ info :: infos, Bank maxSect info')
    (h : (info :: infos).IsChain fun info info' => info'.start 0 = info.start 0 + info.size) : Behind info infos := by
  induction infos generalizing info with
  | nil => exact fun _ h => absurd h not_mem_nil
  | cons next infos ih =>
    rw [isChain_cons_cons] at h
    have hnext := ih (fun info' hmem => hbank info' (mem_cons_of_mem info hmem)) h.2
    intro info' hmem i hi
    rcases mem_cons.mp hmem with rfl | hmem
    · have := ((hbank info' (mem_cons_of_mem info mem_cons_self)).inside i hi).1
      omega
    · have := hnext info' hmem i hi
      omega

/-- What unprotecting does: the first bank is cleared. -/
def clearedFirst (addrFirst addrLast : Nat) : List FlashInfo → List FlashInfo
  | [] => []
  | info :: infos => cleared addrFirst addrLast info :: infos

theorem clearedFirst_eq_iff : clearedFirst addrFirst addrLast infos = infos.map (cleared addrFirst addrLast) ↔
    ¬ProtectedIn addrFirst addrLast infos.tail := by
  cases infos with
  | nil => exact iff_of_true rfl fun ⟨_, h, _⟩ => not_mem_nil h
  | cons info infos =>
    rw [clearedFirst, map_cons, List.cons.injEq, eq_self, true_and, tail_cons, ← map_cleared_eq_iff]
    exact eq_comm

theorem clearedFirst_same (htail : ¬ProtectedIn addrFirst addrLast infos.tail) :
    clearedFirst addrFirst addrLast infos = infos ↔ ¬ProtectedIn addrFirst addrLast infos := by
  rw [clearedFirst_eq_iff.mpr htail, map_cleared_eq_iff]

theorem no_sector (hempty : ∀ info ∈ infos, info.sectorCount = 0) (hmem : info ∈ infos) (hi : i < info.sectorCount) : False := by
  rw [hempty info hmem] at hi
  exact Nat.not_lt_zero i hi

theorem Layout.passes (l : Layout maxSect) (addrFirst addrLast : Nat) :
    ∃ saved, updateFlashProtectBanks maxSect 0 l.banks 0 addrFirst addrLast (fun _ => 0) = (clearedFirst addrFirst addrLast l.banks, saved) ∧
      (updateFlashProtectBanks maxSect 1 (clearedFirst addrFirst addrLast l.banks) 0 addrFirst addrLast saved).1 = l.banks := by
  obtain ⟨present, absent, hbank, hempty, hcontiguous⟩ := l
  cases present with
  | nil =>
    have hsame : clearedFirst addrFirst addrLast absent = absent := by
      cases absent with
      | nil => rfl
      | cons info infos =>
        rw [clearedFirst, cleared_eq_iff.mpr]
        rintro ⟨i, hi, -⟩
        exact no_sector hempty mem_cons_self hi
    have hboth : ∀ prot, updateFlashProtectBanks maxSect prot absent 0 addrFirst addrLast (fun _ => 0) = (absent, fun _ => 0) := fun prot =>
      protectBanks_behind (fun info hmem i hi => (no_sector hempty hmem hi).elim) fun k _ => Nat.zero_ne_one
    refine ⟨fun _ => 0, ?_, ?_⟩
    · rw [Layout.banks, nil_append, hboth, hsame]
    · rw [Layout.banks, nil_append, hsame, hboth]
  | cons info infos =>
    have hfirst := hbank info mem_cons_self
    have hbehind : Behind info (infos ++ absent) := by
      intro info' hmem
      rcases mem_append.mp hmem with hmem | hmem
      · exact behind_of_contiguous hbank hcontiguous info' hmem
      · exact fun i hi => (no_sector hempty hmem hi).elim
    obtain ⟨saved, heq, hone, hrest⟩ := unprotect_eq hfirst hbehind addrFirst addrLast
    exact ⟨saved, heq, congrArg Prod.fst (protect_eq hfirst hbehind addrFirst addrLast hone hrest)⟩

/-! ## When it is safe -/

theorem le_of_roundb {banks : List FlashInfo} {addr last : Nat} (h : flashSectRoundb banks addr = some last) : addr ≤ last := by
  obtain ⟨info, -, hbank⟩ := exists_of_findSome?_eq_some h
  obtain ⟨i, -, hsector⟩ := exists_of_findSome?_eq_some hbank
  simp only at hsector
  generalize (if i = info.sectorCount - 1 then sub32 (add32 (info.start 0) info.size) 1 else sub32 (info.start (i + 1)) 1) = e at hsector
  split at hsector
  next hin =>
    rw [Option.some.injEq] at hsector
    rw [← hsector]
    split
    next hlt => exact Nat.le_of_lt hlt
    next => exact Nat.le_refl addr
  next => cases hsector

/-- What is required of `update_flash`: the flash is erased only with the protected sectors of the range cleared, and with nothing else
changed; in the end every sector is as it was; and with 0 the whole range was erased and written. -/
structure UpdateSafe (banks : List FlashInfo) (erase write addrSource addrFirst size : Nat) (r : Updated) : Prop where
  clears : ∀ e ∈ r.erased, flashSectRoundb banks (sub32 (add32 addrFirst size) 1) = some e.2.1 ∧ e.1 = addrFirst ∧
    e.2.2 = banks.map (cleared addrFirst e.2.1)
  restores : r.banks = banks
  complete : r.ret = 0 → ∃ addrLast infos, flashSectRoundb banks (sub32 (add32 addrFirst size) 1) = some addrLast ∧
    sub32 (add32 addrFirst size) 1 ≤ addrLast ∧ r.erased = some (addrFirst, addrLast, infos) ∧ erase = 0 ∧
    r.written = some (addrSource, addrFirst, size) ∧ write = 0

/-- The range is refused. -/
def Refuses (banks : List FlashInfo) (addrFirst size : Nat) : Prop :=
  ∀ addrLast, flashSectRoundb banks (sub32 (add32 addrFirst size) 1) = some addrLast → addrLast ≤ addrFirst

/-- The condition: the range is refused or there is no memory, or the protected sectors of the range are in the first bank and the flash is
erased and written. Without protected sectors the latter may fail. -/
def UpdateOk (banks : List FlashInfo) (calloc : Bool) (erase write addrFirst size : Nat) : Prop :=
  Refuses banks addrFirst size ∨ calloc = false ∨ ∀ addrLast, flashSectRoundb banks (sub32 (add32 addrFirst size) 1) = some addrLast →
      ¬ProtectedIn addrFirst addrLast banks.tail ∧ (erase = 0 ∧ write = 0 ∨ ¬ProtectedIn addrFirst addrLast banks)

theorem updateSafe_nothing (banks : List FlashInfo) (erase write addrSource addrFirst size : Nat) :
    UpdateSafe banks erase write addrSource addrFirst size ⟨1, banks, none, none⟩ :=
  ⟨nofun, rfl, nofun⟩

theorem updateSafe_failed (l : Layout maxSect) {erase write addrSource size : Nat}
    (hround : flashSectRoundb l.banks (sub32 (add32 addrFirst size) 1) = some addrLast) (hfail : ¬(erase = 0 ∧ write = 0)) :
    UpdateSafe l.banks erase write addrSource addrFirst size
        ⟨1, clearedFirst addrFirst addrLast l.banks, some (addrFirst, addrLast, clearedFirst addrFirst addrLast l.banks), written⟩ ↔
      ¬ProtectedIn addrFirst addrLast l.banks.tail ∧ (erase = 0 ∧ write = 0 ∨ ¬ProtectedIn addrFirst addrLast l.banks) := by
  constructor
  · intro h
    have htail := clearedFirst_eq_iff.mp (h.clears _ rfl).2.2
    exact ⟨htail, Or.inr ((clearedFirst_same htail).mp h.restores)⟩
  · rintro ⟨htail, hok | hnone⟩
    · exact absurd hok hfail
    · refine ⟨fun e he => ?_, (clearedFirst_same htail).mpr hnone, nofun⟩
      obtain rfl := Option.some.inj he
      exact ⟨hround, rfl, clearedFirst_eq_iff.mpr htail⟩

/-- When `update_flash` keeps the protection of every sector. -/
theorem updateFlash_safe_iff (l : Layout maxSect) (calloc : Bool) (erase write addrSource addrFirst size : Nat) :
    UpdateSafe l.banks erase write addrSource addrFirst size (updateFlash maxSect l.banks calloc erase write addrSource addrFirst size) ↔
      UpdateOk l.banks calloc erase write addrFirst size := by
  unfold updateFlash UpdateOk
  cases hround : flashSectRoundb l.banks (sub32 (add32 addrFirst size) 1) with
  | none =>
    refine iff_of_true (updateSafe_nothing ..) (Or.inl fun addrLast h => ?_)
    rw [hround] at h
    cases h
  | some addrLast =>
    simp only
    have hall : ∀ p : Nat → Prop, (∀ last, some addrLast = some last → p last) ↔ p addrLast :=
      fun p => ⟨fun h => h addrLast rfl, fun h last he => Option.some.inj he ▸ h⟩
    rw [hall fun last => ¬ProtectedIn addrFirst last l.banks.tail ∧ (erase = 0 ∧ write = 0 ∨ ¬ProtectedIn addrFirst last l.banks)]
    have hrefuses : Refuses l.banks addrFirst size ↔ addrLast ≤ addrFirst := by rw [Refuses, hround, hall]
    rw [hrefuses]
    by_cases hle : addrLast ≤ addrFirst
    · rw [if_pos hle]
      exact iff_of_true (updateSafe_nothing ..) (Or.inl hle)
    · rw [if_neg hle, updateFlashRange]
      by_cases hcalloc : calloc = false
      · rw [if_pos hcalloc]
        exact iff_of_true (updateSafe_nothing ..) (Or.inr (Or.inl hcalloc))
      · obtain ⟨saved, hunprotect, hprotect⟩ := l.passes addrFirst addrLast
        rw [if_neg hcalloc, or_iff_right hle, or_iff_right hcalloc]
        simp only [hunprotect]
        by_cases herase : 0 < erase
        · rw [if_pos herase]
          exact updateSafe_failed l hround fun h => by omega
        · rw [if_neg herase]
          by_cases hwrite : 0 < write
          · rw [if_pos hwrite]
            exact updateSafe_failed l hround fun h => by omega
          · rw [if_neg hwrite, hprotect]
            have hok : erase = 0 ∧ write = 0 := by omega
            constructor
            · exact fun h => ⟨clearedFirst_eq_iff.mp (h.clears _ rfl).2.2, Or.inl hok⟩
            · rintro ⟨htail, -⟩
              refine ⟨fun e he => ?_, rfl, fun _ => ?_⟩
              · obtain rfl := Option.some.inj he
                exact ⟨hround, rfl, clearedFirst_eq_iff.mpr htail⟩
              · exact ⟨addrLast, _, hround, le_of_roundb hround, rfl, hok.1, rfl, hok.2⟩

/-! ## An erase that fails -/

/-- One bank of two sectors of 64 KiB, the second of which is protected. -/
def oneProtected : FlashInfo := ⟨0x20000, 2, 1, fun i => i * 0x10000, fun i => if i = 1 then 1 else 0⟩

/-- The bank alone. -/
def oneBank : Layout 512 where
  present := [oneProtected]
  absent := []
  bank := forall_mem_singleton.mpr ⟨by decide, by decide, by decide, by decide⟩
  empty := nofun
  contiguous := List.IsChain.singleton _

/-- The protected sector is to be updated, and cannot be erased: it is no longer protected. -/
theorem updateFlash_stays_unprotected :
    ¬UpdateSafe oneBank.banks 1 0 0x100000 0x10000 0x10000 (updateFlash 512 oneBank.banks true 1 0 0x100000 0x10000 0x10000) := by
  intro h
  have hprotect : ((updateFlash 512 oneBank.banks true 1 0 0x100000 0x10000 0x10000).banks.map fun info => info.protect 1) = [0] := by decide
  rw [h.restores] at hprotect
  exact absurd hprotect (by decide)

end Update

end UBoot

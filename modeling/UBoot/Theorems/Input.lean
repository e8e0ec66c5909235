import UBoot.Input
import UBoot.Lib.Exec
import Mathlib

/-!
# Keys in any order

The characters do not depend on the order of the keys as long as all keys without a character choose the same table.
-/

namespace UBoot

open List Option

namespace Input

open Lib

variable {config config' : InputConfig} {tables : List InputKeyXlate} {keys keys' prev : List Nat} {now t : Nat}
variable {table m : Nat} {s s' : Keyboard} {event : KeyEvent}

/-! ## The FIFO -/

/-- The places of the FIFO are in it, there is a table, and no key was held twice. -/
structure Formed (config : InputConfig) : Prop where
  inside : config.fifoIn < 16 ∧ config.fifoOut < 16
  tables : config.tables ≠ []
  once : config.prevKeycodes.Nodup

/-- The characters in the FIFO. -/
def contents (config : InputConfig) : List UInt8 :=
  (List.range ((config.fifoIn + 16 - config.fifoOut) % 16)).map fun i => config.fifo ((config.fifoOut + 1 + i) % 16)

/-- The number of characters that the FIFO has room for. -/
def room (config : InputConfig) : Nat := (config.fifoOut + 15 - config.fifoIn) % 16

theorem inputQueueAscii_eq (hin : config.fifoIn < 16) (hout : config.fifoOut < 16) (ch : UInt8) : (inputQueueAscii config ch).2 =
      if room config = 0 then config
      else { config with fifoIn := (config.fifoIn + 1) % 16, fifo := Function.update config.fifo ((config.fifoIn + 1) % 16) ch } := by
  unfold inputQueueAscii room INPUT_BUFFER_LEN
  by_cases hlast : config.fifoIn + 1 = 16
  · rw [if_pos hlast, hlast, Nat.mod_self]
    by_cases hzero : config.fifoOut = 0
    · rw [if_pos hzero, if_pos (by omega)]
    · rw [if_neg hzero, if_neg (by omega)]
  · rw [if_neg hlast, Nat.mod_eq_of_lt (show config.fifoIn + 1 < 16 by omega)]
    by_cases hnext : config.fifoIn + 1 = config.fifoOut
    · rw [if_pos hnext, if_pos (by omega)]
    · rw [if_neg hnext, if_neg (by omega)]

/-- Only the FIFO differs, and it has the characters behind those it had. -/
structure Queued (config config' : InputConfig) (chs : List UInt8) : Prop where
  eq : ∃ fifo fifoIn, fifoIn < 16 ∧ config' = { config with fifo := fifo, fifoIn := fifoIn }
  contents : contents config' = contents config ++ chs
  room : room config' = room config - chs.length

theorem queued_single (hin : config.fifoIn < 16) (hout : config.fifoOut < 16) (hroom : room config ≠ 0) (ch : UInt8) :
    Queued config (inputQueueAscii config ch).2 [ch] := by
  rw [inputQueueAscii_eq hin hout, if_neg hroom]
  unfold room at hroom
  refine ⟨⟨_, _, Nat.mod_lt _ (by decide), rfl⟩, ?_, ?_⟩
  · have hlen : ((config.fifoIn + 1) % 16 + 16 - config.fifoOut) % 16 = (config.fifoIn + 16 - config.fifoOut) % 16 + 1 := by omega
    have hplace : (config.fifoOut + 1 + (config.fifoIn + 16 - config.fifoOut) % 16) % 16 = (config.fifoIn + 1) % 16 := by omega
    simp only [Input.contents, hlen, range_succ, map_append, map_singleton, hplace, Function.update_self]
    congr 1
    refine map_congr_left fun i hi => Function.update_of_ne ?_ ..
    have := mem_range.mp hi
    omega
  · simp only [room, length_singleton]
    omega

/-- Characters are queued as long as there is room, by induction on those that are left. -/
theorem queued_foldl (config : InputConfig) (chs : List UInt8) (hin : config.fifoIn < 16) (hout : config.fifoOut < 16) :
    Queued config (chs.foldl (fun config ch => (inputQueueAscii config ch).2) config) (chs.take (room config)) := by
  induction chs generalizing config with
  | nil => exact ⟨⟨_, _, hin, rfl⟩, by simp, by simp⟩
  | cons ch chs ih =>
    rw [foldl_cons]
    by_cases hroom : room config = 0
    · have ih' := ih config hin hout
      rw [inputQueueAscii_eq hin hout, if_pos hroom]
      rw [hroom, take_zero] at ih' ⊢
      exact ih'
    · obtain ⟨⟨fifo, fifoIn, hfifo, heq⟩, hcontents, hsingle⟩ := queued_single hin hout hroom ch
      have ih' := ih (inputQueueAscii config ch).2 (by rw [heq]; exact hfifo) (by rw [heq]; exact hout)
      obtain ⟨⟨fifo', fifoIn', hfifo', heq'⟩, hcontents', hroom'⟩ := ih'
      obtain ⟨n, hn⟩ := Nat.exists_eq_succ_of_ne_zero hroom
      rw [hsingle, length_singleton] at hcontents' hroom'
      refine ⟨⟨fifo', fifoIn', hfifo', by rw [heq', heq]⟩, ?_, ?_⟩
      · rw [hcontents', hcontents, append_assoc, hn]
        rfl
      · rw [hroom', hn, take_succ_cons, length_cons]
        simp only [Nat.succ_eq_add_one, Nat.add_sub_cancel]
        omega

/-! ## The table -/

/-- The table after one more key. -/
def nextTable (tables : List InputKeyXlate) (table keycode : Nat) : Nat :=
  if (inputTable tables table).ascii (keycode &&& KEY_MASK) = none then modifierTable tables (keycode &&& KEY_MASK) else table

def tableOf (tables : List InputKeyXlate) (keys : List Nat) : Nat := keys.foldl (nextTable tables) 0

theorem processModifier_eq (config : InputConfig) (key : Nat) (release : Bool) :
    ∃ leds, processModifier config key release = (modifierTable config.tables key, { config with leds := leds }) := by
  unfold processModifier
  simp only
  split
  · exact ⟨_, rfl⟩
  · exact ⟨config.leds, rfl⟩

/-- The first loop of `input_keycodes_to_ascii`: only the lights may change. -/
theorem foldl_selectTable (keys : List Nat) (table : Nat) (config : InputConfig) :
    ∃ leds, keys.foldl selectTable (table, config) = (keys.foldl (nextTable config.tables) table, { config with leds := leds }) := by
  induction keys generalizing table config with
  | nil => exact ⟨config.leds, rfl⟩
  | cons key keys ih =>
    rw [foldl_cons, foldl_cons, selectTable, nextTable]
    simp only
    split
    · obtain ⟨leds, hleds⟩ := processModifier_eq config (key &&& KEY_MASK) (key &&& KEY_RELEASE != 0)
      rw [hleds]
      exact ih _ { config with leds := leds }
    · exact ih _ config

/-- The keys that have no character in some table all choose the same table. -/
def Agree (tables : List InputKeyXlate) (keys : List Nat) : Prop :=
  ∃ t, ∀ key ∈ keys, (∃ i < tables.length, (inputTable tables i).ascii (key &&& KEY_MASK) = none) → modifierTable tables (key &&& KEY_MASK) = t

theorem modifierTable_lt (htables : tables ≠ []) (key : Nat) : modifierTable tables key < tables.length := by
  have hpositive : 0 < tables.length := length_pos_iff.mpr htables
  unfold modifierTable
  refine List.foldlRecOn (motive := fun table => table < tables.length) (List.range tables.length) _ hpositive fun table htable i hi => ?_
  split
  · exact mem_range.mp hi
  · exact htable

/-- If they do, the table stays what it is once it is theirs. -/
theorem foldl_nextTable (htables : tables ≠ []) (hagree : ∀ key ∈ keys,
      (∃ i < tables.length, (inputTable tables i).ascii (key &&& KEY_MASK) = none) → modifierTable tables (key &&& KEY_MASK) = t) (htable : table = 0 ∨ table = t ∧ t < tables.length) :
    keys.foldl (nextTable tables) table =
      if ∃ key ∈ keys, (inputTable tables table).ascii (key &&& KEY_MASK) = none then t else table := by
  have hlt : table < tables.length := by
    rcases htable with rfl | ⟨rfl, hlt⟩
    · exact length_pos_iff.mpr htables
    · exact hlt
  induction keys generalizing table with
  | nil => simp
  | cons key keys ih =>
    have hrest (k : Nat) (hk : k ∈ keys) := hagree k (mem_cons_of_mem _ hk)
    rw [foldl_cons, nextTable]
    by_cases hkey : (inputTable tables table).ascii (key &&& KEY_MASK) = none
    · have hchoice := hagree key mem_cons_self ⟨table, hlt, hkey⟩
      have htlt : t < tables.length := hchoice ▸ modifierTable_lt htables _
      rw [if_pos hkey, hchoice, ih hrest (Or.inr ⟨rfl, htlt⟩) htlt, ite_self, if_pos ⟨key, mem_cons_self, hkey⟩]
    · rw [if_neg hkey, ih hrest htable hlt]
      simp [hkey]

theorem tableOf_perm (htables : tables ≠ []) (hagree : Agree tables keys) (hperm : keys.Perm keys') :
    tableOf tables keys = tableOf tables keys' := by
  obtain ⟨t, hagree⟩ := hagree
  rw [tableOf, tableOf, foldl_nextTable htables hagree (Or.inl rfl),
    foldl_nextTable htables (fun key hkey => hagree key (hperm.mem_iff.mpr hkey)) (Or.inl rfl)]
  simp only [hperm.mem_iff]

theorem tableOf_modifier (htables : tables ≠ []) (hagree : Agree tables keys) (hm : m ∈ keys)
    (hmodifier : (inputTable tables 0).ascii (m &&& KEY_MASK) = none) : tableOf tables keys = modifierTable tables (m &&& KEY_MASK) := by
  obtain ⟨t, hagree⟩ := hagree
  rw [tableOf, foldl_nextTable htables hagree (Or.inl rfl), if_pos ⟨m, hm, hmodifier⟩]
  exact (hagree m hm ⟨0, length_pos_iff.mpr htables, hmodifier⟩).symm

/-! ## A scan -/

/-- The keys that are newly pressed. -/
def pressed (prev keys : List Nat) : List Nat := keys.filter (· ∉ prev)

/-- The keys of a scan in the order of those before, with the new ones behind them. -/
def sorted (prev keys : List Nat) : List Nat := prev.filter (· ∈ keys) ++ pressed prev keys

/-- The keys of a scan that are sent: the new ones, or all of them when it is time to repeat them. -/
def sentKeys (config : InputConfig) (keys : List Nat) (now : Nat) : List Nat :=
  if pressed config.prevKeycodes keys ≠ [] then pressed config.prevKeycodes keys
  else if sub32 now config.nextRepeatMs < 2 ^ 31 then sorted config.prevKeycodes keys
  else []

/-- The characters of a scan. -/
def sentChars (config : InputConfig) (keys : List Nat) (now : Nat) : List UInt8 :=
  (sentKeys config keys now).filterMap (inputTable config.tables (tableOf config.tables (sorted config.prevKeycodes keys))).ascii

theorem sorted_perm (hprev : prev.Nodup) (hkeys : keys.Nodup) : (sorted prev keys).Perm keys := by
  have hheld : (prev.filter (· ∈ keys)).Perm (keys.filter (· ∈ prev)) := by
    refine (perm_ext_iff_of_nodup (hprev.filter _) (hkeys.filter _)).mpr fun k => ?_
    simp [and_comm]
  have hsplit := filter_append_perm (fun k => decide (k ∈ prev)) keys
  have hnot : (keys.filter fun k => !decide (k ∈ prev)) = pressed prev keys := filter_congr fun k _ => by simp
  rw [hnot] at hsplit
  exact (hheld.append_right _).trans hsplit

/-- What `input_send_keycodes` does with the keys of a scan. -/
structure Sent (config : InputConfig) (keys : List Nat) (now : Nat) (config' : InputConfig) : Prop where
  formed : Formed config'
  tables : config'.tables = config.tables
  prev : config'.prevKeycodes = sorted config.prevKeycodes keys
  contents : contents config' = contents config ++ (sentChars config keys now).take (room config)

theorem inputCheckKeycodes_eq (h : Formed config) (hfew : keys.length ≤ 16) :
    inputCheckKeycodes config keys = some (decide (pressed config.prevKeycodes keys ≠ []), sorted config.prevKeycodes keys,
      (config.prevKeycodes.filter (· ∈ keys)).length, { config with prevKeycodes := sorted config.prevKeycodes keys }) := by
  have hlen : (config.prevKeycodes.filter (· ∈ keys)).length ≠ (sorted config.prevKeycodes keys).length ↔
      pressed config.prevKeycodes keys ≠ [] := by
    rw [sorted, length_append, ← length_pos_iff]
    omega
  rw [inputCheckKeycodes, if_neg h.tables, if_neg (show ¬INPUT_BUFFER_LEN < keys.length from Nat.not_lt.mpr hfew)]
  simp only [sortArrayByOrdering]
  congr 3
  exact propext hlen

theorem queued_ascii (config : InputConfig) (h : config.fifoIn < 16 ∧ config.fifoOut < 16) (keys : List Nat) (same : Nat) :
    ∃ leds fifo fifoIn, fifoIn < 16 ∧ (inputKeycodesToAscii config keys same).1.foldl (fun config ch => (inputQueueAscii config ch).2)
        (inputKeycodesToAscii config keys same).2 = { config with leds := leds, fifo := fifo, fifoIn := fifoIn } ∧
      contents { config with leds := leds, fifo := fifo, fifoIn := fifoIn } = contents config ++
        ((keys.drop same).filterMap (inputTable config.tables (tableOf config.tables keys)).ascii).take (room config) := by
  obtain ⟨leds, hleds⟩ := foldl_selectTable keys 0 config
  have hqueued := queued_foldl { config with leds := leds }
    ((keys.drop same).filterMap (inputTable config.tables (tableOf config.tables keys)).ascii) h.1 h.2
  obtain ⟨⟨fifo, fifoIn, hin, heq⟩, hcontents, -⟩ := hqueued
  refine ⟨leds, fifo, fifoIn, hin, ?_, ?_⟩
  · rw [inputKeycodesToAscii, hleds]
    exact heq
  · rw [← show _ = ({ config with leds := leds, fifo := fifo, fifoIn := fifoIn } : InputConfig) from heq]
    exact hcontents

theorem inputSendKeycodes_sent (now : Nat) (h : Formed config) (hkeys : keys.Nodup) (hfew : keys.length ≤ 16) :
    ∃ config', inputSendKeycodes config keys now = some config' ∧ Sent config keys now config' := by
  have honce : (sorted config.prevKeycodes keys).Nodup := (sorted_perm h.once hkeys).nodup_iff.mpr hkeys
  -- The FIFO after the keys from place `same` on.
  let fifoOf (same : Nat) : InputConfig :=
    (inputKeycodesToAscii { config with prevKeycodes := sorted config.prevKeycodes keys } (sorted config.prevKeycodes keys) same).1.foldl
      (fun config ch => (inputQueueAscii config ch).2)
      (inputKeycodesToAscii { config with prevKeycodes := sorted config.prevKeycodes keys } (sorted config.prevKeycodes keys) same).2
  have hsend (same : Nat) (delay : InputConfig → Nat) (hsame : (sorted config.prevKeycodes keys).drop same = sentKeys config keys now) :
      Sent config keys now { fifoOf same with nextRepeatMs := add32 now (delay (fifoOf same)) } := by
    obtain ⟨leds, fifo, fifoIn, hin, heq, hcontents⟩ := queued_ascii
      { config with prevKeycodes := sorted config.prevKeycodes keys } h.inside (sorted config.prevKeycodes keys) same
    rw [hsame] at hcontents
    rw [show fifoOf same = _ from heq]
    exact ⟨⟨⟨hin, h.inside.2⟩, h.tables, honce⟩, rfl, rfl, hcontents⟩
  have hdrop : (sorted config.prevKeycodes keys).drop (config.prevKeycodes.filter (· ∈ keys)).length = pressed config.prevKeycodes keys :=
    drop_left
  unfold inputSendKeycodes
  rw [inputCheckKeycodes_eq h hfew]
  by_cases hpressed : pressed config.prevKeycodes keys = []
  · have hchanged : decide (pressed config.prevKeycodes keys ≠ []) = false := decide_eq_false (not_not.mpr hpressed)
    rw [hchanged]
    by_cases hrepeat : sub32 now config.nextRepeatMs < 2 ^ 31
    · refine ⟨_, ?_, hsend 0 InputConfig.repeatRateMs ?_⟩
      · simp only [decide_eq_true hrepeat]
        rfl
      · rw [sentKeys, if_neg (not_not.mpr hpressed), if_pos hrepeat, drop_zero]
    · refine ⟨{ config with prevKeycodes := sorted config.prevKeycodes keys }, ?_, ?_⟩
      · simp only [decide_eq_false hrepeat]
        rfl
      · refine ⟨⟨h.inside, h.tables, honce⟩, rfl, rfl, ?_⟩
        have hnone : sentChars config keys now = [] := by
          rw [sentChars, sentKeys, if_neg (not_not.mpr hpressed), if_neg hrepeat]
          rfl
        rw [hnone, take_nil, append_nil]
        rfl
  · refine ⟨_, ?_, hsend (config.prevKeycodes.filter (· ∈ keys)).length InputConfig.repeatDelayMs ?_⟩
    · have hchanged : decide (pressed config.prevKeycodes keys ≠ []) = true := decide_eq_true hpressed
      rw [hchanged]
      rfl
    · rw [hdrop, sentKeys, if_pos hpressed]

/-! ## Any order -/

/-- The characters that a scan has put into the FIFO. -/
def queued (config config' : InputConfig) : List UInt8 := (contents config').drop (contents config).length

/-- A key without a character that chooses a table other than the first. -/
def IsModifier (tables : List InputKeyXlate) (key : Nat) : Prop :=
  (inputTable tables 0).ascii (key &&& KEY_MASK) = none ∧ modifierTable tables (key &&& KEY_MASK) ≠ 0

/-- The keys of a scan are decoded whatever their order, and a modifier applies to them. -/
structure Decoded (config : InputConfig) (keys : List Nat) (now : Nat) : Prop where
  order : ∃ config', inputSendKeycodes config keys now = some config' ∧ ∀ keys' : List Nat, keys'.Perm keys →
    ∃ config'', inputSendKeycodes config keys' now = some config'' ∧ (queued config config'').Perm (queued config config') ∧
      ∀ k, k ∈ config''.prevKeycodes ↔ k ∈ config'.prevKeycodes
  modifier : ∀ m ∈ keys, IsModifier config.tables m → (∀ k ∈ keys, IsModifier config.tables k →
      modifierTable config.tables (k &&& KEY_MASK) = modifierTable config.tables (m &&& KEY_MASK)) →
    ∀ config', inputSendKeycodes config keys now = some config' → queued config config' = ((sentKeys config keys now).filterMap
        (inputTable config.tables (modifierTable config.tables (m &&& KEY_MASK))).ascii).take (room config)

/-- A key that has a character in some table. -/
def HasAscii (tables : List InputKeyXlate) (key : Nat) : Prop := ∃ i < tables.length, (inputTable tables i).ascii key ≠ none

instance (tables : List InputKeyXlate) (key : Nat) : Decidable (HasAscii tables key) := inferInstanceAs (Decidable (∃ i < _, _))

/-- The keys fit into `prev_keycodes`; those without a character choose the same table, if there is room for a character and a key to be
sent that has one; and the FIFO has room for the new ones. Nothing is sent where no key is new and it is not time to repeat. -/
structure Steady (config : InputConfig) (keys : List Nat) (now : Nat) : Prop where
  few : keys.length ≤ 16
  agree : room config ≠ 0 → (∃ key ∈ sentKeys config keys now, HasAscii config.tables key) → Agree config.tables keys
  room : room config = 0 ∨ ((pressed config.prevKeycodes keys).filter (HasAscii config.tables ·)).length ≤ room config

theorem Sent.queued_eq (h : Sent config keys now config') : queued config config' = (sentChars config keys now).take (room config) := by
  rw [queued, h.contents, drop_left]

theorem pressed_perm (hperm : keys'.Perm keys) : (pressed prev keys').Perm (pressed prev keys) := hperm.filter _

theorem sorted_eq_of_perm (hperm : keys'.Perm keys) (hnone : pressed prev keys = []) : sorted prev keys' = sorted prev keys := by
  have hnone' : pressed prev keys' = [] := perm_nil.mp (hnone ▸ pressed_perm hperm)
  rw [sorted, sorted, hnone, hnone']
  simp only [hperm.mem_iff]

theorem tableOf_lt (htables : tables ≠ []) (order : List Nat) : tableOf tables order < tables.length := by
  refine List.foldlRecOn (motive := fun table => table < tables.length) order _ (length_pos_iff.mpr htables) fun table htable key _ => ?_
  unfold nextTable
  split
  · exact modifierTable_lt htables _
  · exact htable

theorem length_filterMap_le (htables : tables ≠ []) (keys order : List Nat) :
    (keys.filterMap (inputTable tables (tableOf tables order)).ascii).length ≤ (keys.filter (HasAscii tables ·)).length := by
  induction keys with
  | nil => exact Nat.le_refl 0
  | cons key keys ih =>
    cases hkey : (inputTable tables (tableOf tables order)).ascii key with
    | none =>
      rw [filterMap_cons_none hkey]
      exact Nat.le_trans ih (List.Sublist.length_le ((sublist_cons_self key keys).filter _))
    | some ch =>
      have hhas : HasAscii tables key := ⟨_, tableOf_lt htables order, by rw [hkey]; exact some_ne_none ch⟩
      rw [filterMap_cons_some hkey, filter_cons_of_pos (by simpa using hhas)]
      exact Nat.succ_le_succ ih

theorem filterMap_ascii_nil (hnone : ¬∃ key ∈ keys, HasAscii tables key) (htable : table < tables.length) :
    keys.filterMap (inputTable tables table).ascii = [] := by
  refine filterMap_eq_nil_iff.mpr fun key hkey => ?_
  by_contra hascii
  exact hnone ⟨key, hkey, table, htable, hascii⟩

theorem sentKeys_perm (hperm : keys'.Perm keys) : (sentKeys config keys' now).Perm (sentKeys config keys now) := by
  have hpressed : (pressed config.prevKeycodes keys').Perm (pressed config.prevKeycodes keys) := pressed_perm hperm
  unfold sentKeys
  by_cases hnone : pressed config.prevKeycodes keys = []
  · rw [hnone] at hpressed
    rw [hnone, perm_nil.mp hpressed, sorted_eq_of_perm hperm hnone]
  · have hnone' : pressed config.prevKeycodes keys' ≠ [] := fun hnil => hnone (nil_perm.mp (hnil ▸ hpressed))
    rw [if_pos hnone, if_pos hnone']
    exact hpressed

/-- Keys that agree are decoded to the same characters in any order. -/
theorem sentChars_perm (h : Formed config) (hkeys : keys.Nodup) (hsteady : Steady config keys now) (hperm : keys'.Perm keys) :
    ((sentChars config keys' now).take (room config)).Perm ((sentChars config keys now).take (room config)) := by
  have hsent : (sentKeys config keys' now).Perm (sentKeys config keys now) := sentKeys_perm hperm
  by_cases hzero : room config = 0
  · rw [hzero, take_zero, take_zero]
  by_cases hhas : ∃ key ∈ sentKeys config keys now, HasAscii config.tables key
  · by_cases hpressed : pressed config.prevKeycodes keys = []
    · have hpressed' : pressed config.prevKeycodes keys' = [] := perm_nil.mp (hpressed ▸ pressed_perm hperm)
      rw [sentChars, sentChars, sentKeys, sentKeys, hpressed, hpressed', sorted_eq_of_perm hperm hpressed]
    · have hsorted := sorted_perm h.once hkeys
      have hsorted' := sorted_perm h.once (hperm.nodup_iff.mpr hkeys)
      have hagree : Agree config.tables (sorted config.prevKeycodes keys) := by
        obtain ⟨t, ht⟩ := hsteady.agree hzero hhas
        exact ⟨t, fun key hkey => ht key (hsorted.mem_iff.mp hkey)⟩
      have htable := tableOf_perm h.tables hagree (hsorted.trans (hperm.symm.trans hsorted'.symm))
      have hchars : (sentChars config keys' now).Perm (sentChars config keys now) := by
        rw [sentChars, sentChars, htable]
        exact hsent.filterMap _
      have hlen : (sentChars config keys now).length ≤ room config := by
        rw [sentChars, sentKeys, if_pos hpressed]
        exact Nat.le_trans (length_filterMap_le h.tables _ _) (hsteady.room.resolve_left hzero)
      rw [take_of_length_le hlen, take_of_length_le (hchars.length_eq ▸ hlen)]
      exact hchars
  · have hhas' : ¬∃ key ∈ sentKeys config keys' now, HasAscii config.tables key := by simpa only [hsent.mem_iff] using hhas
    rw [sentChars, sentChars, filterMap_ascii_nil hhas (tableOf_lt h.tables _), filterMap_ascii_nil hhas' (tableOf_lt h.tables _)]

theorem sentChars_modifier (h : Formed config) (hkeys : keys.Nodup) (hsteady : Steady config keys now) (hm : m ∈ keys)
    (hmodifier : IsModifier config.tables m) : (sentChars config keys now).take (room config) = ((sentKeys config keys now).filterMap
        (inputTable config.tables (modifierTable config.tables (m &&& KEY_MASK))).ascii).take (room config) := by
  have hsorted := sorted_perm h.once hkeys
  by_cases hzero : room config = 0
  · rw [hzero, take_zero, take_zero]
  by_cases hhas : ∃ key ∈ sentKeys config keys now, HasAscii config.tables key
  · obtain ⟨t, ht⟩ := hsteady.agree hzero hhas
    rw [sentChars, tableOf_modifier h.tables ⟨t, fun key hkey => ht key (hsorted.mem_iff.mp hkey)⟩ (hsorted.mem_iff.mpr hm) hmodifier.1]
  · rw [sentChars, filterMap_ascii_nil hhas (tableOf_lt h.tables _), filterMap_ascii_nil hhas (modifierTable_lt h.tables _)]

theorem decoded_of_steady (h : Formed config) (hkeys : keys.Nodup) (hsteady : Steady config keys now) : Decoded config keys now := by
  obtain ⟨config', hsend, hsent⟩ := inputSendKeycodes_sent now h hkeys hsteady.few
  refine ⟨⟨config', hsend, fun keys' hperm => ?_⟩, fun m hm hmodifier _ config'' hsend' => ?_⟩
  · have hkeys' := hperm.nodup_iff.mpr hkeys
    obtain ⟨config'', hsend', hsent'⟩ := inputSendKeycodes_sent now h hkeys' (hperm.length_eq ▸ hsteady.few)
    refine ⟨config'', hsend', ?_, fun k => ?_⟩
    · rw [hsent.queued_eq, hsent'.queued_eq]
      exact sentChars_perm h hkeys hsteady hperm
    · rw [hsent.prev, hsent'.prev, (sorted_perm h.once hkeys').mem_iff, (sorted_perm h.once hkeys).mem_iff, hperm.mem_iff]
  · obtain rfl : config' = config'' := some.inj (hsend.symm.trans hsend')
    rw [hsent.queued_eq, sentChars_modifier h hkeys hsteady hm hmodifier]

/-! ## Sequences of scans -/

/-- A keyboard over time: the keys of the last scan, all presses of keys so far, and all characters that were queued. -/
structure Keyboard where
  config : InputConfig
  last : List Nat
  presses : List Nat
  chars : List UInt8

/-- What happens: a scan finds keys held down, or a character is read. -/
inductive KeyEvent where
  | scan (keys : List Nat) (now : Nat)
  | getc

/-- A key is pressed when it is held in a scan and was not in the scan before. -/
def keyboardStep (s : Keyboard) : KeyEvent → Option Keyboard
  | .scan keys now => (inputSendKeycodes s.config keys now).map fun config =>
      ⟨config, keys, s.presses ++ pressed s.last keys, s.chars ++ queued s.config config⟩
  | .getc => (inputGetc s.config).map fun r => { s with config := r.2 }

/-- The keys of a scan are different. -/
def Distinct (_ : Keyboard) : KeyEvent → Prop
  | .scan keys _ => keys.Nodup
  | .getc => True

/-- The keys of a scan are different, and it is not time to repeat them. -/
def Fresh (s : Keyboard) : KeyEvent → Prop
  | .scan keys now => keys.Nodup ∧ ¬(pressed s.config.prevKeycodes keys = [] ∧ sub32 now s.config.nextRepeatMs < 2 ^ 31)
  | .getc => True

instance decidableFresh (s : Keyboard) : (event : KeyEvent) → Decidable (Fresh s event)
  | .scan _ _ => inferInstanceAs (Decidable (_ ∧ ¬(_ ∧ _)))
  | .getc => inferInstanceAs (Decidable True)

/-- Every character stems from a press of its own. -/
def OnePerPress (tables : List InputKeyXlate) (presses : List Nat) (chars : List UInt8) : Prop :=
  ∃ keys, keys.Sublist presses ∧ List.Forall₂ (fun ch key => ∃ i, (inputTable tables i).ascii key = some ch) chars keys

theorem OnePerPress.append {presses presses' : List Nat} {chars chars' : List UInt8} (h : OnePerPress tables presses chars)
    (h' : OnePerPress tables presses' chars') : OnePerPress tables (presses ++ presses') (chars ++ chars') := by
  obtain ⟨keys, hsub, hall⟩ := h
  obtain ⟨keys', hsub', hall'⟩ := h'
  exact ⟨keys ++ keys', hsub.append hsub', rel_append hall hall'⟩

theorem onePerPress_take (keys : List Nat) (table n : Nat) :
    OnePerPress tables keys ((keys.filterMap (inputTable tables table).ascii).take n) := by
  induction keys generalizing n with
  | nil => exact ⟨[], List.Sublist.refl _, by simp⟩
  | cons key keys ih =>
    cases hkey : (inputTable tables table).ascii key with
    | none =>
      obtain ⟨keys', hsub, hall⟩ := ih n
      rw [filterMap_cons_none hkey]
      exact ⟨keys', hsub.cons key, hall⟩
    | some ch =>
      rw [filterMap_cons_some hkey]
      cases n with
      | zero => exact ⟨[], nil_sublist _, List.Forall₂.nil⟩
      | succ n =>
        obtain ⟨keys', hsub, hall⟩ := ih n
        exact ⟨key :: keys', hsub.cons_cons key, List.Forall₂.cons ⟨table, hkey⟩ hall⟩

theorem few_of_sent (h : Formed config) (hsend : inputSendKeycodes config keys now = some config') : keys.length ≤ 16 := by
  by_contra hmany
  rw [inputSendKeycodes, inputCheckKeycodes, if_neg h.tables, if_pos (show INPUT_BUFFER_LEN < keys.length from Nat.lt_of_not_le hmany)] at hsend
  cases hsend

theorem keyboardStep_scan (h : Formed s.config) (hkeys : keys.Nodup) (hstep : stepOf keyboardStep s (.scan keys now) s') :
    ∃ config', Sent s.config keys now config' ∧
      s' = ⟨config', keys, s.presses ++ pressed s.last keys, s.chars ++ (sentChars s.config keys now).take (room s.config)⟩ := by
  rw [stepOf, keyboardStep, map_eq_some_iff] at hstep
  obtain ⟨config', hsend, rfl⟩ := hstep
  obtain ⟨config'', hsend', hsent⟩ := inputSendKeycodes_sent now h hkeys (few_of_sent h hsend)
  obtain rfl : config' = config'' := some.inj (hsend.symm.trans hsend')
  exact ⟨config', hsent, by rw [hsent.queued_eq]⟩

theorem nextOut_lt {i : Nat} (h : i < 16) : (if i + 1 = INPUT_BUFFER_LEN then 0 else i + 1) < 16 := by
  unfold INPUT_BUFFER_LEN
  split <;> omega

theorem keyboardStep_getc (h : Formed s.config) (hstep : stepOf keyboardStep s .getc s') :
    ∃ fifoOut < 16, s' = { s with config := { s.config with fifoOut := fifoOut } } := by
  rw [stepOf, keyboardStep, inputGetc] at hstep
  split at hstep
  · cases hstep
  · obtain rfl := some.inj hstep
    exact ⟨_, nextOut_lt h.inside.2, rfl⟩

theorem Formed.step (h : Formed s.config) (hstep : Guarded Distinct (stepOf keyboardStep) s event s') :
    Formed s'.config := by
  obtain ⟨hkeys, hstep⟩ := hstep
  cases event with
  | scan keys now =>
    obtain ⟨config', hsent, rfl⟩ := keyboardStep_scan h hkeys hstep
    exact hsent.formed
  | getc =>
    obtain ⟨fifoOut, hout, rfl⟩ := keyboardStep_getc h hstep
    exact ⟨⟨h.inside.1, hout⟩, h.tables, h.once⟩

/-- What holds between two events when no keys are repeated. -/
structure Ready (tables : List InputKeyXlate) (s : Keyboard) : Prop where
  formed : Formed s.config
  same : s.config.tables = tables
  last : ∀ k, k ∈ s.config.prevKeycodes ↔ k ∈ s.last
  chars : OnePerPress tables s.presses s.chars

theorem Ready.step (h : Ready tables s) (hstep : Guarded Fresh (stepOf keyboardStep) s event s') :
    Ready tables s' := by
  obtain ⟨hfresh, hstep⟩ := hstep
  cases event with
  | scan keys now =>
    obtain ⟨hkeys, hrepeat⟩ := hfresh
    obtain ⟨config', hsent, rfl⟩ := keyboardStep_scan h.formed hkeys hstep
    have hpressed : pressed s.last keys = pressed s.config.prevKeycodes keys := filter_congr fun k _ => by simp [h.last k]
    have hkeysSent : sentKeys s.config keys now = pressed s.config.prevKeycodes keys := by
      unfold sentKeys
      split
      · rfl
      · rename_i hnone
        rw [if_neg fun hdue => hrepeat ⟨not_not.mp hnone, hdue⟩, not_not.mp hnone]
    refine ⟨hsent.formed, hsent.tables.trans h.same, fun k => ?_, h.chars.append ?_⟩
    · rw [hsent.prev]
      exact (sorted_perm h.formed.once hkeys).mem_iff
    · rw [sentChars, hkeysSent, hpressed, h.same]
      exact onePerPress_take _ _ _
  | getc =>
    obtain ⟨fifoOut, hout, rfl⟩ := keyboardStep_getc h.formed hstep
    exact ⟨⟨⟨h.formed.inside.1, hout⟩, h.formed.tables, h.formed.once⟩, h.same, h.last, h.chars⟩

end Input

/-- Shift and `a`, then F1 beside the shift key, and the same two keys in another order. -/
def shiftThenPlain : List Input.KeyEvent := [.scan [42, 30] 0, .getc, .scan [59, 42] 10, .scan [42, 59] 20, .scan [30] 30]

open Input in
/-- The keyboard behind them. -/
def shiftedKeyboard : Keyboard :=
  (shiftThenPlain.foldlM (fun s event => if Input.Fresh s event then keyboardStep s event else none) ⟨inputInit 0 250 50, [], [], []⟩).get
    (by decide)

end UBoot

import Mathlib
import UBoot.Eth
import UBoot.Lib.Exec
import UBoot.Lib.Ring
import UBoot.Theorems.SnprintfLength

/-!
# The ring of the Ethernet devices

The registered devices are a ring in the order of their registration, with `eth_devices` at its beginning and `eth_current` somewhere in it,
after any sequence of operations. So every walk along it ends, and `eth_init` tries each device at most once.
-/

namespace UBoot

open List Option

namespace Eth

open Lib

variable {δ : Type*} {name : δ → CString} {s s' : EthVars δ} {L : List δ} {next : δ → Option δ} {head dev cur n : δ} {xs : List δ}

/-! ## The registered devices -/

/-- The registered devices are a ring, `eth_devices` is the first and `eth_current` one of them. -/
structure Formed (s : EthVars δ) (L : List δ) : Prop where
  ring : Ring s.next L
  devices : s.ethDevices = L.head?
  none : L = [] → s.ethCurrent = none
  current : L ≠ [] → ∃ cur ∈ L, s.ethCurrent = some cur

/-- The pointers that make the ring are the same. -/
structure Kept (s s' : EthVars δ) : Prop where
  next : s'.next = s.next
  devices : s'.ethDevices = s.ethDevices

theorem ethCurrentChanged_eq (name : δ → CString) (s : EthVars δ) : ∃ act, ethCurrentChanged name s = { s with ethact := act } := by
  unfold ethCurrentChanged
  split
  · split
    · exact ⟨_, rfl⟩
    · split
      · exact ⟨_, rfl⟩
      · exact ⟨s.ethact, rfl⟩
  · split
    · exact ⟨_, rfl⟩
    · exact ⟨s.ethact, rfl⟩

theorem Formed.kept (h : Formed s L) (hkept : Kept s s') (hcur : cur ∈ L) (hcurrent : s'.ethCurrent = some cur) : Formed s' L where
  ring := by
    rw [hkept.next]
    exact h.ring
  devices := hkept.devices.trans h.devices
  none := fun hnil => by
    rw [hnil] at hcur
    cases hcur
  current := fun _ => ⟨cur, hcur, hcurrent⟩

/-- The ring from the current device on. -/
theorem Formed.from_current (h : Formed s L) (hcurrent : s.ethCurrent = some cur) :
    ∃ xs, Linked s.next (cur :: xs) cur ∧ cur ∉ xs ∧ xs.length < L.length ∧ (cur :: xs).Perm L ∧ (cur :: xs).Nodup ∧
      ∃ as bs, L = as ++ cur :: bs ∧ xs = bs ++ as := by
  have hne : L ≠ [] := by
    intro hnil
    rw [h.none hnil] at hcurrent
    cases hcurrent
  obtain ⟨cur', hmem, hcur'⟩ := h.current hne
  obtain rfl : cur = cur' := some.inj (hcurrent.symm.trans hcur')
  obtain ⟨as, bs, rfl⟩ := append_of_mem hmem
  have hring : Ring s.next (cur :: (bs ++ as)) := h.ring.rotate
  obtain ⟨hnodup, hlinked⟩ := ring_cons.mp hring
  have hperm : (cur :: bs ++ as).Perm (as ++ cur :: bs) := perm_append_comm
  exact ⟨bs ++ as, hlinked, (nodup_cons.mp hnodup).1, by rw [← hperm.length_eq]; exact Nat.lt_succ_self _, hperm, hnodup,
    as, bs, rfl, rfl⟩

variable [DecidableEq δ]

/-! ## Walks -/

theorem ethBefore_eq (hlinked : Linked next (cur :: xs) n) (hn : n = head ∨ n = dev) (hxs : ∀ x ∈ xs, x ≠ head ∧ x ≠ dev) {fuel : Nat}
    (hfuel : xs.length < fuel) : ethBefore next head dev fuel cur = some (xs.getLastD cur) := by
  induction xs generalizing cur fuel with
  | nil =>
    obtain ⟨fuel, rfl⟩ := Nat.exists_eq_add_one.2 hfuel
    have hnext : next cur = some n := hlinked.1
    rw [ethBefore, if_neg]
    · rfl
    · rw [hnext]
      rintro ⟨hhead, hdev⟩
      rcases hn with rfl | rfl
      · exact hhead rfl
      · exact hdev rfl
  | cons x xs ih =>
    obtain ⟨fuel, rfl⟩ := Nat.exists_eq_add_one.2 (Nat.zero_lt_of_lt hfuel)
    obtain ⟨hx, hxs⟩ := forall_mem_cons.mp hxs
    have hnext : next cur = some x := hlinked.1
    have hgo : next cur ≠ some head ∧ next cur ≠ some dev := by
      rw [hnext]
      exact ⟨fun h => hx.1 (some.inj h), fun h => hx.2 (some.inj h)⟩
    rw [ethBefore, if_pos hgo, hnext, getLastD_cons]
    exact ih hlinked.2 hxs (Nat.lt_of_succ_lt_succ hfuel)

theorem ethLast_eq (fuel : Nat) (d : δ) : ethLast next head fuel d = ethBefore next head head fuel d := by
  induction fuel generalizing d with
  | zero => rfl
  | succ fuel ih =>
    rw [ethLast, ethBefore]
    simp only [and_self]
    split
    · cases next d with
      | none => rfl
      | some d => exact ih d
    · rfl

/-- The search of `eth_set_current` ends at a device with the name or where it began. -/
theorem ethFind_eq (name : δ → CString) (act : CString) (hlinked : Linked next (cur :: xs) n) (hn : n ∉ xs) :
    ∃ found d, (∀ fuel, xs.length < fuel → ethFind name next act n fuel cur = some (found, d)) ∧ (d ∈ cur :: xs ∨ d = n) := by
  induction xs generalizing cur with
  | nil =>
    have hnext : next cur = some n := hlinked.1
    by_cases hname : strcmp (name cur) act = 0
    · refine ⟨true, cur, fun fuel hfuel => ?_, Or.inl mem_cons_self⟩
      obtain ⟨fuel, rfl⟩ := Nat.exists_eq_add_one.2 hfuel
      rw [ethFind, if_pos hname]
    · refine ⟨false, n, fun fuel hfuel => ?_, Or.inr rfl⟩
      obtain ⟨fuel, rfl⟩ := Nat.exists_eq_add_one.2 hfuel
      simp only [ethFind, if_neg hname, hnext, ne_eq, not_true_eq_false, if_false]
  | cons x xs ih =>
    have hnext : next cur = some x := hlinked.1
    rw [mem_cons, not_or] at hn
    by_cases hname : strcmp (name cur) act = 0
    · refine ⟨true, cur, fun fuel hfuel => ?_, Or.inl mem_cons_self⟩
      obtain ⟨fuel, rfl⟩ := Nat.exists_eq_add_one.2 (Nat.zero_lt_of_lt hfuel)
      rw [ethFind, if_pos hname]
    · obtain ⟨found, d, heq, hd⟩ := ih hlinked.2 hn.2
      refine ⟨found, d, fun fuel hfuel => ?_, hd.imp_left (mem_cons_of_mem cur)⟩
      obtain ⟨fuel, rfl⟩ := Nat.exists_eq_add_one.2 (Nat.zero_lt_of_lt hfuel)
      simp only [ethFind, if_neg hname, hnext, if_pos hn.1]
      exact heq fuel (Nat.lt_of_succ_lt_succ hfuel)

/-- The registered devices after an operation. -/
def registered (L : List δ) : EthOp δ → List δ
  | .register dev => L ++ [dev]
  | .unregister dev => L.erase dev
  | _ => L

/-- A device is registered only when it is not. -/
def Allowed (L : List δ) : EthOp δ → Prop
  | .register dev => dev ∉ L
  | _ => True

/-- The operation ends in the state `s'`, whatever fuel is given to its loops from some number on. -/
def Ends (name : δ → CString) (s : EthVars δ) (op : EthOp δ) (s' : EthVars δ) : Prop := ∃ m, ∀ fuel, m < fuel → ethOp name fuel s op = some s'

/-- One operation on the devices, with the list of those that are registered. -/
def ethStep (name : δ → CString) (s : EthVars δ × List δ) (op : EthOp δ) (s' : EthVars δ × List δ) : Prop :=
  Allowed s.2 op ∧ Ends name s.1 op s'.1 ∧ s'.2 = registered s.2 op

/-! ## Operations -/

omit [DecidableEq δ] in
theorem exists_concat_getLastD (x : δ) (xs : List δ) : ∃ ys, x :: xs = ys ++ [xs.getLastD x] := by
  refine ⟨(x :: xs).dropLast, ?_⟩
  rw [← getLast_eq_getLastD (cons_ne_nil x xs), dropLast_concat_getLast]

/-- `eth_register` of a device that is not registered puts it at the end of the ring. -/
theorem ethRegister_formed (name : δ → CString) (h : Formed s L) (hdev : dev ∉ L) :
    ∃ s', (∀ fuel, L.length < fuel → ethRegister name fuel dev s = some (0, s')) ∧ Formed s' (L ++ [dev]) := by
  cases L with
  | nil =>
    obtain ⟨act, hact⟩ := ethCurrentChanged_eq name { s with ethDevices := some dev, ethCurrent := some dev }
    have hnone : s.ethDevices = Option.none := h.devices
    refine ⟨_, fun fuel _ => by rw [ethRegister, hnone], ?_⟩
    rw [hact]
    exact ⟨ring_single (Function.update_self ..), rfl, fun h => absurd h (cons_ne_nil dev []), fun _ => ⟨dev, mem_cons_self, rfl⟩⟩
  | cons head xs =>
    obtain ⟨hnodup, hlinked⟩ := ring_cons.mp h.ring
    have hsome : s.ethDevices = some head := h.devices
    have hhead : ∀ x ∈ xs, x ≠ head ∧ x ≠ head := fun x hx =>
      have hne : x ≠ head := fun he => (nodup_cons.mp hnodup).1 (he ▸ hx)
      ⟨hne, hne⟩
    refine ⟨ethEnter dev { s with next := Function.update s.next (xs.getLastD head) (some dev) }, fun fuel hfuel => ?_, ?_⟩
    · have hlast : ethLast s.next head fuel head = some (xs.getLastD head) := by
        rw [ethLast_eq]
        exact ethBefore_eq hlinked (Or.inl rfl) hhead (Nat.lt_of_succ_lt hfuel)
      rw [ethRegister, hsome]
      simp only [hlast]
    · obtain ⟨cur, hcur, hcurrent⟩ := h.current (cons_ne_nil head xs)
      obtain ⟨ys, hsnoc⟩ := exists_concat_getLastD head xs
      have hring := h.ring
      have hfirst : head = (head :: xs).headD dev := rfl
      rw [hsnoc] at hring hdev hfirst
      have hring' := hring.concat hdev hfirst
      rw [← hsnoc, ← hsome] at hring'
      exact ⟨hring', hsome, fun h => absurd h (concat_ne_nil dev (head :: xs)), fun _ => ⟨cur, mem_append_left [dev] hcur, hcurrent⟩⟩

theorem ethDropCurrent_formed (name : δ → CString) (hring : Ring s.next L) (hdevices : s.ethDevices = L.head?)
    (hcurrent : ∃ cur, s.ethCurrent = some cur ∧ (cur = dev ∨ cur ∈ L)) : Formed (ethDropCurrent name dev s) L := by
  obtain ⟨cur, hcur, hmem⟩ := hcurrent
  rw [ethDropCurrent, hcur]
  by_cases hdev : cur = dev
  · obtain ⟨act, hact⟩ := ethCurrentChanged_eq name { s with ethCurrent := s.ethDevices }
    rw [if_pos (congrArg some hdev), hact]
    refine ⟨hring, hdevices, fun hnil => ?_, fun hne => ?_⟩
    · rw [hnil] at hdevices
      exact hdevices
    · obtain ⟨x, xs, rfl⟩ := exists_cons_of_ne_nil hne
      exact ⟨x, mem_cons_self, hdevices⟩
  · have hmem := hmem.resolve_left hdev
    rw [if_neg (mt some.inj hdev)]
    exact ⟨hring, hdevices, fun hnil => absurd hmem (hnil ▸ not_mem_nil), fun _ => ⟨cur, hmem, hcur⟩⟩

/-- The device behind `b` is taken out of the ring, and it is not the first. -/
theorem ethUnlink_formed {b : δ} {ys bs : List δ} (name : δ → CString) (h : Formed s (ys ++ [b] ++ dev :: bs)) :
    Formed (ethUnlink name b dev s) (ys ++ [b] ++ bs) := by
  have hnodup := h.ring.nodup
  obtain ⟨cur, hmem, hcur⟩ := h.current (by simp)
  have hhead : (ys ++ [b] ++ bs).head? = s.ethDevices := by
    rw [h.devices]
    cases ys <;> rfl
  have hfirst : s.ethDevices ≠ some dev := by
    intro hdev
    rw [h.devices] at hdev
    have hin : dev ∈ (ys ++ [b]) := by
      cases ys with
      | nil => exact mem_singleton.mpr (some.inj hdev).symm
      | cons y ys => exact some.inj hdev ▸ mem_cons_self
    exact (nodup_append.mp hnodup).2.2 dev hin dev mem_cons_self rfl
  rw [ethUnlink, ethDropHead, if_neg hfirst]
  refine ethDropCurrent_formed name h.ring.unlink hhead.symm ⟨cur, hcur, ?_⟩
  rw [mem_append, mem_cons] at hmem
  rw [mem_append]
  rcases hmem with hmem | rfl | hmem
  · exact Or.inr (Or.inl hmem)
  · exact Or.inl rfl
  · exact Or.inr (Or.inr hmem)

/-- The first device is taken out of the ring. -/
theorem ethUnlink_head_formed (name : δ → CString) (h : Formed s (head :: xs)) : Formed (ethUnlink name (xs.getLastD head) head s) xs := by
  have hsome : s.ethDevices = some head := h.devices
  obtain ⟨cur, hmem, hcur⟩ := h.current (cons_ne_nil head xs)
  have hring := h.ring
  have hcurrent : cur = head ∨ cur ∈ xs := mem_cons.mp hmem
  rw [ethUnlink, ethDropHead, if_pos hsome]
  cases xs with
  | nil =>
    have hself : s.next head = some head := (ring_cons.mp hring).2.1
    refine ethDropCurrent_formed name ring_nil ?_ ⟨cur, hcur, hcurrent⟩
    simp only [getLastD_nil, Function.update_self, hself, hsome, if_true, head?_nil]
  | cons x xs =>
    obtain ⟨ys, hsnoc⟩ := exists_concat_getLastD x xs
    have hne : x ≠ head := fun he => (nodup_cons.mp hring.nodup).1 (he ▸ mem_cons_self)
    have hlast : head ≠ xs.getLastD x := fun he => (nodup_cons.mp hring.nodup).1 (he ▸ getLastD_mem_cons)
    have hnext : s.next head = some x := (ring_cons.mp hring).2.1
    have hcut : Ring s.next ([head] ++ x :: xs) := hring
    have hrotate : Ring s.next (x :: xs ++ [head]) := hcut.rotate
    rw [hsnoc] at hrotate
    have hunlink := hrotate.unlink
    rw [append_nil, ← hsnoc] at hunlink
    refine ethDropCurrent_formed name (by rw [getLastD_cons]; exact hunlink) ?_ ⟨cur, hcur, hcurrent⟩
    rw [getLastD_cons]
    simp only [Function.update_of_ne hlast, hnext, hsome]
    rw [if_neg (mt some.inj hne)]
    rfl

/-- `eth_unregister` takes a device out of the ring if it is there. -/
theorem ethUnregister_formed (name : δ → CString) (h : Formed s L) (dev : δ) :
    ∃ r s', (∀ fuel, L.length < fuel → ethUnregister name fuel dev s = some (r, s')) ∧ Formed s' (L.erase dev) := by
  cases L with
  | nil =>
    have hnone : s.ethDevices = Option.none := h.devices
    exact ⟨-1, s, fun fuel _ => by rw [ethUnregister, hnone], h⟩
  | cons head xs =>
    have hsome : s.ethDevices = some head := h.devices
    obtain ⟨hnodup, hlinked⟩ := ring_cons.mp h.ring
    have hhead : ∀ x ∈ xs, x ≠ head := fun x hx he => (nodup_cons.mp hnodup).1 (he ▸ hx)
    have hlast : s.next (xs.getLastD head) = some head := by
      obtain ⟨ys, hsnoc⟩ := exists_concat_getLastD head xs
      rw [hsnoc] at hlinked
      exact (linked_append.mp hlinked).2.1
    by_cases hdev : dev = head
    · subst hdev
      refine ⟨0, ethUnlink name (xs.getLastD dev) dev s, fun fuel hfuel => ?_, ?_⟩
      · have hbefore := ethBefore_eq hlinked (Or.inl rfl) (fun x hx => ⟨hhead x hx, hhead x hx⟩) (Nat.lt_of_succ_lt hfuel)
        rw [ethUnregister, hsome]
        simp only [hbefore, hlast, ne_eq, not_true_eq_false, if_false]
      · rw [erase_cons_head]
        exact ethUnlink_head_formed name h
    · by_cases hmem : dev ∈ xs
      · obtain ⟨as, bs, rfl⟩ := append_of_mem hmem
        have has : dev ∉ as := fun hin => (nodup_append.mp (nodup_cons.mp hnodup).2).2.2 dev hin dev mem_cons_self rfl
        have hcut : Linked s.next (head :: as ++ dev :: bs) head := hlinked
        have hfirst := linked_append.mp hcut
        obtain ⟨ys, hsnoc⟩ := exists_concat_getLastD head as
        have hform := h
        rw [← cons_append, hsnoc] at hform
        refine ⟨0, ethUnlink name (as.getLastD head) dev s, fun fuel hfuel => ?_, ?_⟩
        · rw [length_cons, length_append] at hfuel
          have hbefore : ethBefore s.next head dev fuel head = some (as.getLastD head) := ethBefore_eq hfirst.1 (Or.inr rfl)
            (fun x hx => ⟨hhead x (mem_append_left _ hx), ne_of_mem_of_not_mem hx has⟩) (by omega)
          have hnext : s.next (as.getLastD head) = some dev := by
            have hlink := hfirst.1
            rw [hsnoc] at hlink
            exact (linked_append.mp hlink).2.1
          rw [ethUnregister, hsome]
          simp only [hbefore, hnext, ne_eq, not_true_eq_false, if_false]
        · rw [← cons_append, erase_append_right _ (not_mem_cons_of_ne_of_not_mem hdev has), erase_cons_head, hsnoc]
          exact ethUnlink_formed name hform
      · refine ⟨-1, s, fun fuel hfuel => ?_, ?_⟩
        · have hbefore : ethBefore s.next head dev fuel head = some (xs.getLastD head) := ethBefore_eq hlinked (Or.inl rfl)
            (fun x hx => ⟨hhead x hx, ne_of_mem_of_not_mem hx hmem⟩) (Nat.lt_of_succ_lt hfuel)
          rw [ethUnregister, hsome]
          simp only [hbefore, hlast]
          exact if_pos fun he => hdev (some.inj he).symm
        · rw [erase_of_not_mem (not_mem_cons_of_ne_of_not_mem hdev hmem)]
          exact h

/-- `eth_try_another` leaves the ring alone, and goes to the next device or stays. -/
theorem ethTryAnother_eq (name : δ → CString) (ethrotate : Option CString) (firstRestart : Bool) (hcurrent : s.ethCurrent = some cur) :
    Kept s (ethTryAnother name ethrotate firstRestart s) ∧ (ethTryAnother name ethrotate firstRestart s).ethCurrent =
        if ethrotate.any fun value => strcmp value ethrotateNo = 0 then some cur else s.next cur := by
  unfold ethTryAnother
  by_cases hno : (ethrotate.any fun value => strcmp value ethrotateNo = 0) = true
  · rw [if_pos hno, if_pos hno]
    exact ⟨⟨rfl, rfl⟩, hcurrent⟩
  · rw [if_neg hno, if_neg hno]
    -- `first_failed` is set or not, and then the device is the next one
    have hmoved : ∀ u : EthVars δ, Kept s u →
        let t := ethCurrentChanged name { u with ethCurrent := u.next cur }
        let t' := if t.firstFailed = t.ethCurrent then { t with netRestartWrap := true } else t
        Kept s t' ∧ t'.ethCurrent = s.next cur := by
      intro u hu
      obtain ⟨act, hact⟩ := ethCurrentChanged_eq name { u with ethCurrent := u.next cur }
      simp only [hact]
      split
      · exact ⟨⟨hu.next, hu.devices⟩, by rw [hu.next]⟩
      · exact ⟨⟨hu.next, hu.devices⟩, by rw [hu.next]⟩
    simp only [hcurrent]
    cases firstRestart with
    | false => exact hmoved s ⟨rfl, rfl⟩
    | true => exact hmoved { s with firstFailed := some cur } ⟨rfl, rfl⟩

omit [DecidableEq δ] in
theorem Formed.next_mem (h : Formed s L) (hcurrent : s.ethCurrent = some cur) : ∃ d ∈ L, s.next cur = some d := by
  obtain ⟨xs, hlinked, -, -, hperm, -⟩ := h.from_current hcurrent
  refine ⟨xs.headD cur, hperm.mem_iff.mp ?_, hlinked.1⟩
  cases xs with
  | nil => exact mem_cons_self
  | cons x xs => exact mem_cons_of_mem cur mem_cons_self

theorem ethTryAnother_formed (name : δ → CString) (ethrotate : Option CString) (firstRestart : Bool) (h : Formed s L) :
    Formed (ethTryAnother name ethrotate firstRestart s) L := by
  cases hcurrent : s.ethCurrent with
  | none =>
    have hsame : ethTryAnother name ethrotate firstRestart s = s := by
      unfold ethTryAnother
      rw [hcurrent]
      exact ite_self s
    rw [hsame]
    exact h
  | some cur =>
    obtain ⟨hkept, hcur⟩ := ethTryAnother_eq name ethrotate firstRestart hcurrent
    split at hcur
    · obtain ⟨xs, -, -, -, hperm, -⟩ := h.from_current hcurrent
      exact h.kept hkept (hperm.mem_iff.mp mem_cons_self) hcur
    · obtain ⟨d, hd, hnext⟩ := h.next_mem hcurrent
      exact h.kept hkept hd (hcur.trans hnext)

theorem ethSetCurrent_formed (name : δ → CString) (h : Formed s L) (act : Option CString) :
    ∃ s', (∀ fuel, L.length < fuel → ethSetCurrent name fuel act s = some s') ∧ Formed s' L := by
  cases hcurrent : s.ethCurrent with
  | none => exact ⟨s, fun fuel _ => by rw [ethSetCurrent, hcurrent], h⟩
  | some cur =>
    obtain ⟨xs, hlinked, hnot, hlen, hperm, -⟩ := h.from_current hcurrent
    have hcur : cur ∈ L := hperm.mem_iff.mp mem_cons_self
    cases act with
    | none =>
      obtain ⟨act, hact⟩ := ethCurrentChanged_eq name s
      refine ⟨ethCurrentChanged name s, fun fuel _ => by rw [ethSetCurrent, hcurrent], ?_⟩
      rw [hact]
      exact h.kept ⟨rfl, rfl⟩ hcur hcurrent
    | some act =>
      obtain ⟨found, d, hfind, hd⟩ := ethFind_eq name act hlinked hnot
      have hmem : d ∈ L := by
        rcases hd with hd | rfl
        · exact hperm.mem_iff.mp hd
        · exact hcur
      obtain ⟨act', hact⟩ := ethCurrentChanged_eq name { s with ethCurrent := some d }
      refine ⟨if found then { s with ethCurrent := some d } else ethCurrentChanged name { s with ethCurrent := some d },
        fun fuel hfuel => ?_, ?_⟩
      · rw [ethSetCurrent, hcurrent]
        simp only [hfind fuel (Nat.lt_trans hlen hfuel)]
        cases found <;> rfl
      · rw [hact]
        cases found with
        | true => exact h.kept ⟨rfl, rfl⟩ hmem rfl
        | false => exact h.kept ⟨rfl, rfl⟩ hmem rfl

/-! ## Starting a device -/

/-- The addresses of the environment go to the devices from `cur` on. -/
theorem ethSyncEnv_eq (addrs : Nat → Option (List UInt8)) (hlinked : Linked s.next (cur :: xs) head) (hxs : head ∉ xs) :
    ∃ enetaddr, ∀ fuel, xs.length < fuel → ethSyncEnv addrs head fuel cur s = some { s with enetaddr := enetaddr } := by
  induction xs generalizing s cur with
  | nil =>
    have hnext : s.next cur = some head := hlinked.1
    cases haddr : addrs (s.index cur) with
    | none =>
      refine ⟨s.enetaddr, fun fuel hfuel => ?_⟩
      obtain ⟨fuel, rfl⟩ := Nat.exists_eq_add_one.2 hfuel
      simp only [ethSyncEnv, haddr, hnext, ne_eq, not_true_eq_false, if_false]
    | some addr =>
      refine ⟨Function.update s.enetaddr cur addr, fun fuel hfuel => ?_⟩
      obtain ⟨fuel, rfl⟩ := Nat.exists_eq_add_one.2 hfuel
      simp only [ethSyncEnv, haddr, hnext, ne_eq, not_true_eq_false, if_false]
  | cons x xs ih =>
    have hnext : s.next cur = some x := hlinked.1
    rw [mem_cons, not_or] at hxs
    cases haddr : addrs (s.index cur) with
    | none =>
      obtain ⟨enetaddr, heq⟩ := ih hlinked.2 hxs.2
      refine ⟨enetaddr, fun fuel hfuel => ?_⟩
      obtain ⟨fuel, rfl⟩ := Nat.exists_eq_add_one.2 (Nat.zero_lt_of_lt hfuel)
      simp only [ethSyncEnv, haddr, hnext, if_pos (Ne.symm hxs.1)]
      exact heq fuel (Nat.lt_of_succ_lt_succ hfuel)
    | some addr =>
      obtain ⟨enetaddr, heq⟩ := ih (s := { s with enetaddr := Function.update s.enetaddr cur addr }) hlinked.2 hxs.2
      refine ⟨enetaddr, fun fuel hfuel => ?_⟩
      obtain ⟨fuel, rfl⟩ := Nat.exists_eq_add_one.2 (Nat.zero_lt_of_lt hfuel)
      simp only [ethSyncEnv, haddr, hnext, if_pos (Ne.symm hxs.1)]
      exact heq fuel (Nat.lt_of_succ_lt_succ hfuel)

/-- The devices `ds` were tried from the call `n` on: the last of them was the first that started, or none did. -/
def Tried (inits : Nat → Int) (n : Nat) (old : Option δ) (r : Int) (ds : List δ) (s' : EthVars δ) : Prop :=
  (r = 0 ∧ ∃ failed d, ds = failed ++ [d] ∧ (∀ k < failed.length, inits (n + k) < 0) ∧ 0 ≤ inits (n + failed.length) ∧ s'.ethCurrent = some d) ∨
  (r = -1 ∧ (∀ k < ds.length, inits (n + k) < 0) ∧ s'.ethCurrent = old)

omit [DecidableEq δ] in
theorem Tried.cons {inits : Nat → Int} {m : Nat} {old : Option δ} {r : Int} {ds : List δ} (h : Tried inits (m + 1) old r ds s')
    (hfail : inits m < 0) (d : δ) : Tried inits m old r (d :: ds) s' := by
  have hcons : ∀ j, (∀ k < j, inits (m + 1 + k) < 0) → ∀ k < j + 1, inits (m + k) < 0 := by
    intro j hj k hk
    cases k with
    | zero => exact hfail
    | succ k =>
      have := hj k (Nat.lt_of_succ_lt_succ hk)
      rwa [Nat.add_assoc, Nat.add_comm 1] at this
  rcases h with ⟨hr, failed, last, rfl, hfailed, hstart, hcur⟩ | ⟨hr, hfailed, hcur⟩
  · refine Or.inl ⟨hr, d :: failed, last, rfl, hcons _ hfailed, ?_, hcur⟩
    rwa [length_cons, Nat.add_comm failed.length, ← Nat.add_assoc]
  · exact Or.inr ⟨hr, hcons _ hfailed, hcur⟩

/-- The loop over the devices from `cur` on, the last of which is linked to `old`. With `ethrotate` it is over after one. -/
theorem ethTryInit_eq (name : δ → CString) (ethrotate : Option CString) (inits : Nat → Int) {old : δ} (calls : List δ)
    (hlinked : Linked s.next (cur :: xs) old) (hxs : old ∉ xs) (hcurrent : s.ethCurrent = some cur)
    (hno : (ethrotate.any fun value => strcmp value ethrotateNo = 0) = true → cur = old) :
    ∃ r ds s', (∀ fuel, xs.length < fuel → ethTryInit name ethrotate inits (some old) fuel calls s = some (r, calls ++ ds, s')) ∧
      Kept s s' ∧ ds ≠ [] ∧ ds <+: cur :: xs ∧ Tried inits calls.length (some old) r ds s' := by
  induction xs generalizing s cur calls with
  | nil =>
    by_cases hstart : 0 ≤ inits calls.length
    · refine ⟨0, [cur], { s with state := Function.update s.state cur .active }, fun fuel hfuel => ?_, ⟨rfl, rfl⟩,
        cons_ne_nil _ _, prefix_refl _, Or.inl ⟨rfl, [], cur, rfl, nofun, hstart, hcurrent⟩⟩
      obtain ⟨fuel, rfl⟩ := Nat.exists_eq_add_one.2 hfuel
      rw [ethTryInit, hcurrent]
      simp only [if_pos hstart]
    · obtain ⟨hkept, hcur⟩ := ethTryAnother_eq name ethrotate false hcurrent
      have hback : (ethTryAnother name ethrotate false s).ethCurrent = some old := by
        rw [hcur]
        split
        next h => rw [hno h]
        next => exact hlinked.1
      refine ⟨-1, [cur], _, fun fuel hfuel => ?_, hkept, cons_ne_nil _ _, prefix_refl _, Or.inr ⟨rfl, fun k hk => ?_, hback⟩⟩
      · obtain ⟨fuel, rfl⟩ := Nat.exists_eq_add_one.2 hfuel
        simp only [ethTryInit, hcurrent, if_neg hstart, hback, ne_eq, not_true_eq_false, if_false]
      · obtain rfl : k = 0 := Nat.lt_one_iff.mp hk
        exact Int.not_le.mp hstart
  | cons x xs ih =>
    rw [mem_cons, not_or] at hxs
    by_cases hstart : 0 ≤ inits calls.length
    · refine ⟨0, [cur], { s with state := Function.update s.state cur .active }, fun fuel hfuel => ?_, ⟨rfl, rfl⟩,
        cons_ne_nil _ _, ⟨x :: xs, rfl⟩, Or.inl ⟨rfl, [], cur, rfl, nofun, hstart, hcurrent⟩⟩
      obtain ⟨fuel, rfl⟩ := Nat.exists_eq_add_one.2 (Nat.zero_lt_of_lt hfuel)
      rw [ethTryInit, hcurrent]
      simp only [if_pos hstart]
    · obtain ⟨hkept, hcur⟩ := ethTryAnother_eq name ethrotate false hcurrent
      have hfail := Int.not_le.mp hstart
      by_cases hstay : (ethrotate.any fun value => strcmp value ethrotateNo = 0) = true
      · rw [if_pos hstay, hno hstay] at hcur
        refine ⟨-1, [cur], _, fun fuel hfuel => ?_, hkept, cons_ne_nil _ _, ⟨x :: xs, rfl⟩, Or.inr ⟨rfl, fun k hk => ?_, hcur⟩⟩
        · obtain ⟨fuel, rfl⟩ := Nat.exists_eq_add_one.2 (Nat.zero_lt_of_lt hfuel)
          simp only [ethTryInit, hcurrent, if_neg hstart, hcur, ne_eq, not_true_eq_false, if_false]
        · obtain rfl : k = 0 := Nat.lt_one_iff.mp hk
          exact hfail
      · have hnext : s.next cur = some x := hlinked.1
        rw [if_neg hstay, hnext] at hcur
        have hgo : some old ≠ (ethTryAnother name ethrotate false s).ethCurrent := by
          rw [hcur]
          exact fun he => hxs.1 (some.inj he)
        obtain ⟨r, ds, s', heq, hkept', -, hsub, htried⟩ := ih (calls ++ [cur]) (by rw [hkept.next]; exact hlinked.2) hxs.2 hcur
          (fun h => absurd h hstay)
        rw [length_append, length_singleton] at htried
        refine ⟨r, cur :: ds, s', fun fuel hfuel => ?_, ⟨hkept'.next.trans hkept.next, hkept'.devices.trans hkept.devices⟩,
          cons_ne_nil _ _, cons_prefix_cons.mpr ⟨rfl, hsub⟩, htried.cons hfail cur⟩
        obtain ⟨fuel, rfl⟩ := Nat.exists_eq_add_one.2 (Nat.zero_lt_of_lt hfuel)
        simp only [ethTryInit, hcurrent, if_neg hstart]
        rw [if_pos hgo, heq fuel (Nat.lt_of_succ_lt_succ hfuel), append_assoc]
        rfl

/-- The devices are a first part of the ring `L`, from the current one on. -/
def FromCurrent (L : List δ) (current : Option δ) (ds : List δ) : Prop :=
  ∀ cur, current = some cur → ds ≠ [] ∧ ∃ as bs, L = as ++ cur :: bs ∧ ds <+: cur :: (bs ++ as)

/-- `eth_init` ends, and has tried each of the registered devices at most once. -/
theorem ethInit_formed (name : δ → CString) (h : Formed s L) (addrs : Nat → Option (List UInt8)) (ethrotate : Option CString)
    (inits : Nat → Int) :
    ∃ r calls s', (∀ fuel, L.length < fuel → ethInit name fuel addrs ethrotate inits s = some (r, calls, s')) ∧ Formed s' L ∧ calls.Nodup ∧
      (∀ d ∈ calls, d ∈ L) ∧ FromCurrent L s.ethCurrent calls ∧ Tried inits 0 s.ethCurrent r calls s' := by
  cases hcurrent : s.ethCurrent with
  | none =>
    exact ⟨-1, [], s, fun fuel _ => by rw [ethInit, hcurrent], h, nodup_nil, (fun _ h => by cases h), (fun _ h => by cases h), Or.inr ⟨rfl, nofun, hcurrent⟩⟩
  | some cur =>
    obtain ⟨xs, hlinked, hnot, hlen, hperm, hnodup, as, bs, hL, rfl⟩ := h.from_current hcurrent
    cases L with
    | nil => cases hlen
    | cons head ys =>
      have hsome : s.ethDevices = some head := h.devices
      obtain ⟨hhead, hring⟩ := ring_cons.mp h.ring
      obtain ⟨enetaddr, hsync⟩ := ethSyncEnv_eq addrs hring (nodup_cons.mp hhead).1
      obtain ⟨r, ds, s', htry, hkept, hne, hsub, htried⟩ := ethTryInit_eq (s := { s with enetaddr := enetaddr }) name ethrotate inits [] hlinked
        hnot hcurrent (fun _ => rfl)
      have hmem : ∀ d ∈ ds, d ∈ head :: ys := fun d hd => hperm.mem_iff.mp (hsub.subset hd)
      have hcur : ∃ d ∈ head :: ys, s'.ethCurrent = some d := by
        rcases htried with ⟨-, failed, d, rfl, -, -, hd⟩ | ⟨-, -, hd⟩
        · exact ⟨d, hmem d (mem_append_right _ mem_cons_self), hd⟩
        · exact ⟨cur, hperm.mem_iff.mp mem_cons_self, hd⟩
      obtain ⟨d, hd, hcur⟩ := hcur
      refine ⟨r, ds, s', fun fuel hfuel => ?_, h.kept ⟨hkept.next, hkept.devices⟩ hd hcur, hnodup.sublist hsub.sublist, hmem,
        fun cur' hcur' => ?_, htried⟩
      · rw [ethInit, hcurrent]
        simp only [hsome, hsync fuel (Nat.lt_of_succ_lt hfuel), hcurrent]
        simpa only [hsome, hcurrent, nil_append] using htry fuel (Nat.lt_trans hlen hfuel)
      · obtain rfl := some.inj hcur'
        exact ⟨hne, as, bs, hL, hsub⟩

/-! ## Any sequence of operations -/

/-- Every operation that is allowed ends, and keeps the ring. -/
theorem ends_formed (name : δ → CString) (h : Formed s L) (op : EthOp δ) (hallowed : Allowed L op) :
    ∃ s', Ends name s op s' ∧ Formed s' (registered L op) := by
  cases op with
  | register dev =>
    obtain ⟨s', heq, hform⟩ := ethRegister_formed name h hallowed
    exact ⟨s', ⟨L.length, fun fuel hfuel => by rw [ethOp, heq fuel hfuel]; rfl⟩, hform⟩
  | unregister dev =>
    obtain ⟨r, s', heq, hform⟩ := ethUnregister_formed name h dev
    exact ⟨s', ⟨L.length, fun fuel hfuel => by rw [ethOp, heq fuel hfuel]; rfl⟩, hform⟩
  | tryAnother ethrotate firstRestart => exact ⟨_, ⟨0, fun _ _ => rfl⟩, ethTryAnother_formed name ethrotate firstRestart h⟩
  | setCurrent act =>
    obtain ⟨s', heq, hform⟩ := ethSetCurrent_formed name h act
    exact ⟨s', ⟨L.length, heq⟩, hform⟩
  | init addrs ethrotate inits =>
    obtain ⟨r, calls, s', heq, hform, -⟩ := ethInit_formed name h addrs ethrotate inits
    exact ⟨s', ⟨L.length, fun fuel hfuel => by rw [ethOp, heq fuel hfuel]; rfl⟩, hform⟩
  | setenv ethact => exact ⟨_, ⟨0, fun _ _ => rfl⟩, ⟨h.ring, h.devices, h.none, h.current⟩⟩

theorem Ends.unique {op : EthOp δ} {s'' : EthVars δ} (h : Ends name s op s') (h' : Ends name s op s'') : s' = s'' := by
  obtain ⟨m, hm⟩ := h
  obtain ⟨m', hm'⟩ := h'
  exact some.inj ((hm (max m m' + 1) (by omega)).symm.trans (hm' (max m m' + 1) (by omega)))

theorem ethStep_formed {t t' : EthVars δ × List δ} {op : EthOp δ} (h : Formed t.1 t.2) (hstep : ethStep name t op t') : Formed t'.1 t'.2 := by
  obtain ⟨hallowed, hends, hlist⟩ := hstep
  obtain ⟨s', hends', hform⟩ := ends_formed name h op hallowed
  rw [hlist, hends.unique hends']
  exact hform

/-- No device is registered, and every member of the devices is arbitrary. -/
def NoDevice (s : EthVars δ) : Prop := s.ethDevices = none ∧ s.ethCurrent = none

omit [DecidableEq δ] in
theorem NoDevice.formed (h : NoDevice s) : Formed s [] := ⟨ring_nil, h.1, fun _ => h.2, fun h => absurd rfl h⟩

/-- The devices that are registered one after the other. -/
def AllAllowed : List δ → List (EthOp δ) → Prop
  | _, [] => True
  | L, op :: ops => Allowed L op ∧ AllAllowed (registered L op) ops

theorem exists_run (name : δ → CString) (h : Formed s L) (ops : List (EthOp δ)) (hallowed : AllAllowed L ops) :
    ∃ s', Exec (ethStep name) (s, L) ops (s', ops.foldl registered L) := by
  induction ops generalizing s L with
  | nil => exact ⟨s, Exec.nil _⟩
  | cons op ops ih =>
    obtain ⟨s', hends, hform⟩ := ends_formed name h op hallowed.1
    obtain ⟨s'', hrun⟩ := ih hform hallowed.2
    exact ⟨s'', Exec.cons ⟨hallowed.1, hends, rfl⟩ hrun⟩

/-- After any sequence of operations the devices that are registered are a ring in the order of their registration, `eth_current` is one
of them, every operation ends, and `eth_init` tries them in the order of the ring, from `eth_current` on, each at most once. -/
theorem eth_ring_formed (name : δ → CString) {s0 : EthVars δ} (h0 : NoDevice s0) {ops : List (EthOp δ)}
    (hrun : Exec (ethStep name) (s0, []) ops (s, L)) :
    L.Nodup ∧ s.ethDevices = L.head? ∧ (∀ k (hk : k < L.length), s.next L[k] = L[(k + 1) % L.length]?) ∧
      (L = [] → s.ethCurrent = none) ∧ (L ≠ [] → ∃ cur ∈ L, s.ethCurrent = some cur) ∧
      (∀ op, Allowed L op → ∃ s', Ends name s op s') ∧
      ∀ addrs ethrotate inits, ∃ r calls s', (∃ m, ∀ fuel, m < fuel → ethInit name fuel addrs ethrotate inits s = some (r, calls, s')) ∧
        calls.Nodup ∧ (∀ d ∈ calls, d ∈ L) ∧ FromCurrent L s.ethCurrent calls ∧ Tried inits 0 s.ethCurrent r calls s' := by
  have hkeep : ∀ t op t', Formed t.1 t.2 → ethStep name t op t' → Formed t'.1 t'.2 := fun _ _ _ h hstep => ethStep_formed h hstep
  have hform : Formed s L := hrun.invariant hkeep h0.formed
  refine ⟨hform.ring.nodup, hform.devices, fun k hk => hform.ring.next_getElem hk, hform.none, hform.current, fun op hallowed => ?_,
    fun addrs ethrotate inits => ?_⟩
  · obtain ⟨s', hends, -⟩ := ends_formed name hform op hallowed
    exact ⟨s', hends⟩
  · obtain ⟨r, calls, s', heq, -, hnodup, hmem, hfrom, htried⟩ := ethInit_formed name hform addrs ethrotate inits
    exact ⟨r, calls, s', ⟨L.length, heq⟩, hnodup, hmem, hfrom, htried⟩

/-- Devices without a name, none of which is registered. -/
def noDevices : EthVars Nat := ⟨none, none, fun _ => none, fun _ => .init, fun _ => 0, fun _ => [], 0, none, false, none⟩

/-- Two devices are registered, the second becomes the current one, and the first is taken out again. -/
theorem eth_ring_formed_two : ∃ s, Exec (ethStep fun _ => CString.ofBytes []) (noDevices, [])
    [.register 1, .register 2, .tryAnother none false, .unregister 1] (s, [2]) ∧ s.ethDevices = some 2 ∧ s.next 2 = some 2 := by
  obtain ⟨s, hrun⟩ := exists_run (fun _ => CString.ofBytes []) (NoDevice.formed (s := noDevices) ⟨rfl, rfl⟩)
    [.register 1, .register 2, .tryAnother none false, .unregister 1] ⟨not_mem_nil, (by decide : 2 ∉ [1]), trivial, trivial, trivial⟩
  have hformed := eth_ring_formed (fun _ => CString.ofBytes []) ⟨rfl, rfl⟩ hrun
  exact ⟨s, hrun, hformed.2.1, hformed.2.2.1 0 (by decide)⟩

end Eth

/-! ## The text of an address -/

open SnprintfAux

theorem hexByte_digits : ∀ n : Fin 256, ∃ hi lo, packHexByte (UInt8.ofNat n) = [hi, lo] ∧ lo ≠ 0x78 ∧
    xdigit hi = some (n / 16 : Nat) ∧ xdigit lo = some (n % 16 : Nat) := by
  intro n
  refine ⟨_, _, rfl, ?_⟩
  decide +kernel +revert

theorem simpleStrtoulHexEnd_hexByte (b : UInt8) {rest : List UInt8} (hrest : rest = [] ∨ ∃ cp, rest = chColon :: cp) :
    simpleStrtoulHexEnd (packHexByte b ++ rest) = (b.toNat, rest) := by
  have hend (n : Nat) : strtoulEndLoop 16 n rest = (n, rest) := by
    rcases hrest with rfl | ⟨cp, rfl⟩ <;> rfl
  have hb := b.toNat_lt
  obtain ⟨hi, lo, htext, hx, hhi, hlo⟩ := hexByte_digits ⟨b.toNat, hb⟩
  rw [UInt8.ofNat_toNat] at htext
  have hstart : strtoulEndLoop 16 0 (hexStart (hi :: lo :: rest)) = strtoulEndLoop 16 0 (hi :: lo :: rest) := by
    rw [hexStart.eq_def]
    split
    · simp_all
    · rename_i heq
      rw [heq]
      rfl
    · rfl
  rw [htext, simpleStrtoulHexEnd, cons_append, cons_append, nil_append, hstart]
  have h1 : b.toNat / 16 < 16 := by omega
  have h2 : b.toNat / 16 % 4294967296 * 16 + b.toNat % 16 = b.toNat := by omega
  have h3 := Nat.mod_lt b.toNat (show 0 < 16 by decide)
  simp [strtoulEndLoop, hhi, hlo, hend, h1, h2, h3]

theorem macAddressString_text (enetaddr : Nat → UInt8) : macAddressString addchText [] enetaddr (-1) (-1) {} =
    (range 6).flatMap fun i => packHexByte (enetaddr i) ++ if i ≠ 5 then [chColon] else [] := by
  have hlen (b : UInt8) : (packHexByte b).length = 2 := rfl
  simp [macAddressString, string, addchs_text, range_succ, hlen]

/-- `"%pM"` -/
def macFormat : CString := ⟨"%pM".toList.map asc, by decide⟩

theorem formatText_macFormat {ptr : UInt32} (hptr : ptr ≠ 0) (enetaddr : Nat → UInt8) :
    formatText true macFormat [.pointer ptr enetaddr] = some (macAddressString addchText [] enetaddr (-1) (-1) {}) := by
  have hdirective : directive true addchText [] [asc 'p', asc 'M'] [.pointer ptr enetaddr] =
      some (pointer addchText [] true [asc 'M'] ptr enetaddr (-1) (-1) {}, [], []) := rfl
  have hpointer : pointer addchText [] true [asc 'M'] ptr enetaddr (-1) (-1) {} = macAddressString addchText [] enetaddr (-1) (-1) {} := by
    rw [pointer, if_neg hptr]
    rfl
  rw [formatText, show macFormat.bytes = asc '%' :: [asc 'p', asc 'M'] from rfl, formatLoop_directive, hdirective, hpointer]
  exact formatLoop_nil true addchText _ []

/-- The text that `eth_setenv_enetaddr` prints of an address fits its buffer, and `eth_getenv_enetaddr` reads the address back. -/
theorem eth_enetaddr_round_trip {ptr : UInt32} (hptr : ptr ≠ 0) (enetaddr : Nat → UInt8) :
    ∃ text, formatText true macFormat [.pointer ptr enetaddr] = some text ∧ text.length < 20 ∧
      ethParseEnetaddr 6 text = (range 6).map enetaddr := by
  have hlen (b : UInt8) : (packHexByte b).length = 2 := rfl
  have hcolon (b : UInt8) (rest : List UInt8) := simpleStrtoulHexEnd_hexByte b (Or.inr ⟨rest, rfl⟩)
  have hlast (b : UInt8) := append_nil (packHexByte b) ▸ simpleStrtoulHexEnd_hexByte b (Or.inl rfl)
  refine ⟨_, formatText_macFormat hptr enetaddr, ?_⟩
  rw [macAddressString_text]
  simp [ethParseEnetaddr, range_succ, hlen, hcolon, hlast]

theorem eth_enetaddr_round_trip_mac :
    ∃ text, formatText true macFormat [.pointer 64 fun i => [0, 13, 12, 11, 10, 255].getD i 0] = some text ∧ text.length < 20 ∧
      ethParseEnetaddr 6 text = [0, 13, 12, 11, 10, 255] :=
  eth_enetaddr_round_trip (by decide) _

end UBoot

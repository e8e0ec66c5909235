import Mathlib
import UBoot.Lemmas.DefragAux
import UBoot.NetReceive

/-!
# Headers that are sent pass the test of those received

Up to 32767 words the sum has no carry out of 32 bits, and two folds leave it in 16 bits, congruent to what it was modulo 65535. The test
takes both 0 and 65535 for zero.
-/

namespace UBoot

open Lib List DefragAux

/-- The sum of the words that `NetCksum` goes over. -/
def wordSum (mem : Nat → UInt8) (ptr len : Nat) : Nat := ((range len).map fun i => get16 mem (ptr + 2 * i)).sum

namespace NetHeadersAux

variable {mem mem' : Nat → UInt8} {ptr len a : Nat}
variable {xs : List UInt8} {b : Nat}

theorem get16_le (mem : Nat → UInt8) (a : Nat) : get16 mem a ≤ 65535 := by
  have hlo := (mem a).toNat_lt
  have hhi := (mem (a + 1)).toNat_lt
  rw [get16]
  omega

theorem get16_store (h : a + 2 ≤ b ∨ b + xs.length ≤ a) : get16 (store mem b xs) a = get16 mem a :=
  get16_congr (store_of_outside (by omega)) (store_of_outside (by omega))

theorem wordSum_le (mem : Nat → UInt8) (ptr len : Nat) : wordSum mem ptr len ≤ len * 65535 := by
  have h := sum_le_card_nsmul ((range len).map fun i => get16 mem (ptr + 2 * i)) 65535 fun x hx => by
    obtain ⟨i, -, rfl⟩ := mem_map.1 hx
    exact get16_le mem _
  rwa [length_map, length_range] at h

theorem wordSum_change {i : Nat} (hi : i < len) (h : ∀ j < len, j ≠ i → get16 mem' (ptr + 2 * j) = get16 mem (ptr + 2 * j)) :
    wordSum mem' ptr len + get16 mem (ptr + 2 * i) = wordSum mem ptr len + get16 mem' (ptr + 2 * i) := by
  induction len with
  | zero => exact absurd hi (Nat.not_lt_zero i)
  | succ len ih =>
    rw [wordSum, wordSum, sum_range_succ, sum_range_succ]
    by_cases hlast : i = len
    · have hsame : wordSum mem' ptr len = wordSum mem ptr len := by
        refine congrArg sum (map_congr_left fun j hj => ?_)
        have hj := mem_range.1 hj
        exact h j (Nat.lt_succ_of_lt hj) (by omega)
      rw [wordSum, wordSum] at hsame
      rw [hsame, hlast]
      omega
    · have := ih (by omega) fun j hj => h j (Nat.lt_succ_of_lt hj)
      rw [wordSum, wordSum] at this
      rw [h len (Nat.lt_succ_self len) (Ne.symm hlast)]
      omega

theorem netCksumAt_mod (mem : Nat → UInt8) (ptr : Nat) (hlen : len < 32768) : netCksumAt mem ptr len % 65535 = wordSum mem ptr len % 65535 := by
  have hle := wordSum_le mem ptr len
  have hfold (x : Nat) : (x % 2 ^ 16 + x / 2 ^ 16) % 65535 = x % 65535 := by omega
  have h32 : wordSum mem ptr len % 2 ^ 32 = wordSum mem ptr len := Nat.mod_eq_of_lt (by omega)
  have hsmall (x : Nat) (hx : x ≤ 98302) : (x % 2 ^ 16 + x / 2 ^ 16) % 2 ^ 16 = x % 2 ^ 16 + x / 2 ^ 16 := by
    rcases Nat.lt_or_ge x (2 ^ 16) with hlt | hge
    · omega
    · have : x / 2 ^ 16 = 1 := by omega
      omega
  unfold netCksumAt
  show _ % 2 ^ 16 % 65535 = _
  rw [← wordSum, h32, hsmall _ (by omega), hfold, hfold]

theorem netCksumAt_lt (mem : Nat → UInt8) (ptr len : Nat) : netCksumAt mem ptr len < 2 ^ 16 := Nat.mod_lt _ (by decide)

theorem netCksumOkAt_iff (hlen : len < 32768) : netCksumOkAt mem ptr len = true ↔ 65535 ∣ wordSum mem ptr len := by
  have hmod := netCksumAt_mod mem ptr hlen
  have hlt := netCksumAt_lt mem ptr len
  have hzero : netCksumAt mem ptr len % 65535 = 0 ↔ netCksumAt mem ptr len = 0 ∨ netCksumAt mem ptr len = 65535 := by omega
  rw [netCksumOkAt, decide_eq_true_eq, Nat.dvd_iff_mod_eq_zero, ← hmod, hzero]
  constructor
  · intro h
    omega
  · rintro (h | h) <;> rw [h] <;> rfl

theorem netCksumOkAt_store (h : ptr + 2 * len ≤ b) :
    netCksumOkAt (store mem b xs) ptr len = netCksumOkAt mem ptr len := by
  have hwords : (range len).map (fun i => get16 (store mem b xs) (ptr + 2 * i)) = (range len).map fun i => get16 mem (ptr + 2 * i) :=
    map_congr_left fun i hi => get16_store (Or.inl (by have := mem_range.1 hi; omega))
  rw [netCksumOkAt, netCksumAt, hwords]
  rfl

theorem netCksumOkAt_put (pkt : Nat) (hsum : get16 mem (pkt + 10) = 0) :
    netCksumOkAt (put16 mem (pkt + 10) (2 ^ 16 - 1 - netCksumAt mem pkt 10)) pkt 10 = true := by
  have hlt := netCksumAt_lt mem pkt 10
  have hmod := netCksumAt_mod mem pkt (show 10 < 32768 by decide)
  have hchange : wordSum (put16 mem (pkt + 10) (2 ^ 16 - 1 - netCksumAt mem pkt 10)) pkt 10 + get16 mem (pkt + 10) = _ :=
    wordSum_change (show 5 < 10 by decide) fun j _ hj => get16_put16_of_disjoint (by omega)
  rw [hsum, get16_put16_self] at hchange
  rw [netCksumOkAt_iff (by decide), Nat.dvd_iff_mod_eq_zero]
  omega

/-- The fields of a header in front of the checksum and behind it: the version, the lengths, `NetIPID`, the protocol, the addresses and the
ports. -/
theorem netSetUdpHeader_fields (mem : Nat → UInt8) (netIPID netOurIP pkt dest : Nat) (dport sport len : Int) :
    Stored (netSetUdpHeader mem netIPID netOurIP pkt dest dport sport len).1 pkt
      ([0x45, 0] ++ [UInt8.ofNat (ushortOf (IP_UDP_HDR_SIZE + len) / 256), UInt8.ofNat (ushortOf (IP_UDP_HDR_SIZE + len))] ++
        [UInt8.ofNat (netIPID / 256), UInt8.ofNat netIPID] ++ [0x40, 0] ++ [255] ++ [IPPROTO_UDP]) ∧
    Stored (netSetUdpHeader mem netIPID netOurIP pkt dest dport sport len).1 (pkt + 12)
      ([UInt8.ofNat netOurIP, UInt8.ofNat (netOurIP / 256), UInt8.ofNat (netOurIP / 65536), UInt8.ofNat (netOurIP / 16777216)] ++
        [UInt8.ofNat dest, UInt8.ofNat (dest / 256), UInt8.ofNat (dest / 65536), UInt8.ofNat (dest / 16777216)] ++
        [UInt8.ofNat (ushortOf sport / 256), UInt8.ofNat (ushortOf sport)] ++ [UInt8.ofNat (ushortOf dport / 256), UInt8.ofNat (ushortOf dport)] ++
        [UInt8.ofNat (ushortOf (UDP_HDR_SIZE + len) / 256), UInt8.ofNat (ushortOf (UDP_HDR_SIZE + len))] ++ [0, 0]) := by
  simp only [stored_append, length_append, length_cons, length_nil]
  unfold netSetUdpHeader netSetIpHeader
  simp only [putHtons, putIP, put16]
  refine ⟨⟨⟨⟨⟨⟨?_, ?_⟩, ?_⟩, ?_⟩, ?_⟩, ?_⟩, ⟨⟨⟨⟨?_, ?_⟩, ?_⟩, ?_⟩, ?_⟩, ?_⟩
  -- each field is the last one that was stored at its place
  all_goals repeat first | exact stored_store _ _ _ | refine Stored.store_outside ?_ (by simp only [length_cons, length_nil]; omega)

end NetHeadersAux

open NetHeadersAux in
/-- The IP header of a packet that is sent passes `NetCksumOk`. Up to 32767 words the test holds just of the sums that are multiples of
65535; so it does not hold any longer once one word has changed to another modulo 65535. -/
theorem net_headers_pass : (∀ (mem : Nat → UInt8) (netIPID netOurIP pkt dest : Nat) (dport sport len : Int),
      netCksumOkAt (netSetUdpHeader mem netIPID netOurIP pkt dest dport sport len).1 pkt (IP_HDR_SIZE / 2) = true) ∧
    ∀ (mem : Nat → UInt8) (ptr n : Nat), n < 32768 → (netCksumOkAt mem ptr n = true ↔ 65535 ∣ wordSum mem ptr n) ∧
      ∀ (mem' : Nat → UInt8) (i : Nat), i < n → (∀ j < n, j ≠ i → get16 mem' (ptr + 2 * j) = get16 mem (ptr + 2 * j)) →
        ¬ get16 mem' (ptr + 2 * i) ≡ get16 mem (ptr + 2 * i) [MOD 65535] → netCksumOkAt mem ptr n = true → netCksumOkAt mem' ptr n = false := by
  refine ⟨fun mem netIPID netOurIP pkt dest dport sport len => ?_, fun mem ptr n hn => ⟨netCksumOkAt_iff hn, ?_⟩⟩
  · refine (netCksumOkAt_store (show pkt + 20 ≤ pkt + 26 by omega)).trans ((netCksumOkAt_store (show pkt + 20 ≤ pkt + 24 by omega)).trans
      ((netCksumOkAt_store (show pkt + 20 ≤ pkt + 22 by omega)).trans ((netCksumOkAt_store (Nat.le_refl (pkt + 20))).trans
        (netCksumOkAt_put pkt ?_))))
    -- The fields that are stored after `ip_sum` was cleared lie on both sides of it.
    refine (get16_store (Or.inr (Nat.le_refl (pkt + 10)))).trans ((get16_store (Or.inr (show pkt + 4 ≤ pkt + 10 by omega))).trans
      ((get16_store (Or.inl (show pkt + 12 ≤ pkt + 16 by omega))).trans ((get16_store (Or.inl (Nat.le_refl (pkt + 12)))).trans ?_)))
    exact get16_put16_self ..
  · intro mem' i hi hsame hchanged hok
    rw [netCksumOkAt_iff hn] at hok
    refine Bool.eq_false_iff.2 fun hok' => hchanged ?_
    rw [netCksumOkAt_iff hn] at hok'
    have hsum := wordSum_change hi hsame
    have hmod : wordSum mem' ptr n + get16 mem (ptr + 2 * i) ≡ wordSum mem ptr n + get16 mem' (ptr + 2 * i) [MOD 65535] := by rw [hsum]
    unfold Nat.ModEq
    omega

/-- The header of a request for a file, from port 1069 to port 69. -/
def requestHeader : Nat → UInt8 := (netSetUdpHeader (fun _ => 0) 7 0x0100a8c0 0 0x0200a8c0 69 1069 20).1

/-- It passes, and does not with another time to live. -/
theorem net_headers_pass_words : netCksumOkAt requestHeader 0 10 = true ∧ netCksumOkAt (Function.update requestHeader 8 1) 0 10 = false :=
  have hpass := net_headers_pass.1 (fun _ => 0) 7 0x0100a8c0 0 0x0200a8c0 69 1069 20
  ⟨hpass, (net_headers_pass.2 requestHeader 0 10 (by decide)).2 _ 4 (by decide) (by decide) (by decide) hpass⟩

end UBoot

import UBoot.Lib.Exec
import UBoot.Lemmas.Assembly
import Mathlib

/-!
# Reassembly stays inside its buffer

As long as no fragment is copied over a descriptor of a hole that is left, the descriptors are those of an ordered list of holes.
-/

namespace UBoot

open List

section

open Lib DefragAux

/-- The variables of `__NetDefragment`, whether the packet they are about was returned, and whether an access was outside the
buffer or a walk did not end. -/
structure Reassembly where
  defrag : Defrag
  done : Bool
  fault : Bool

/-- Before the first packet. -/
def Reassembly.start : Reassembly := ⟨⟨fun _ => 0, 0, 0⟩, false, false⟩

/-- A packet is received. -/
def Reassembly.step (r : Reassembly) (pkt : List UInt8) : Reassembly :=
  if netReceiveOk pkt then
    match r.defrag.netDefragment pkt with
    | none => { r with fault := true }
    | some (s, out) => { r with defrag := s, done := out.isSome || (r.done && (tooFar pkt || !r.defrag.isNew pkt)) }
  else r

/-- A fragment of a packet that was not yet returned; and if it overlaps with the hole that the walk ends at, it is not shorter than
its header, does not reach into the next hole, and if it leaves a part of this hole behind it, ends at a multiple of 8 bytes where
a descriptor fits into the buffer. -/
def DefragOk (r : Reassembly) (pkt : List UInt8) : Prop :=
  netReceiveOk pkt = true → tooFar pkt = false → (r.done = true → r.defrag.isNew pkt = true) ∧
    ∀ h, findHole (r.defrag.begin pkt).buf (fragStart pkt) (2 ^ 16) (r.defrag.begin pkt).firstHole = some (some h) → noOverlap pkt h = false →
      0 ≤ fragLen pkt ∧
      ((holeAt (r.defrag.begin pkt).buf h).nextHole ≠ 0 → fragStart pkt + fragLen pkt ≤ 8 * (holeAt (r.defrag.begin pkt).buf h).nextHole) ∧
      (moreFragments pkt = true → fragStart pkt + fragLen pkt < (holeAt (r.defrag.begin pkt).buf h).lastByte →
        (fragStart pkt + fragLen pkt) % 8 = 0 ∧ fragStart pkt + fragLen pkt + 8 ≤ IP_MAXUDP)

namespace DefragSafeAux

variable {r : Reassembly} {s : Defrag} {pkt : List UInt8} {hs pre post : List (Nat × Nat)} {h l fin : Nat}

/-- Nothing is being assembled, or the packet was returned, or the buffer holds a list of holes. -/
structure Intact (r : Reassembly) : Prop where
  noFault : r.fault = false
  state : r.defrag.totalLen = 0 ∨ r.done = true ∨ ∃ hs, hs ≠ [] ∧ Linked r.defrag hs ∧ OrderedHoles hs

/-- The condition on a step is what the fragment needs to fit. -/
theorem fragFits_of_ok (hL : Linked s (pre ++ (h, l) :: post)) (ho : OrderedHoles (pre ++ (h, l) :: post))
    (hpre : ∀ g ∈ pre, g.2 < fragStart pkt) (hov : noOverlap pkt h = false)
    (hfin : (fragStart pkt : Int) + fragLen pkt = fin) (hlen : 0 ≤ fragLen pkt)
    (hnext : (holeAt s.buf h).nextHole ≠ 0 → fragStart pkt + fragLen pkt ≤ 8 * (holeAt s.buf h).nextHole)
    (hrest : moreFragments pkt = true → fragStart pkt + fragLen pkt < (holeAt s.buf h).lastByte →
      (fragStart pkt + fragLen pkt) % 8 = 0 ∧ fragStart pkt + fragLen pkt + 8 ≤ IP_MAXUDP) :
    FragFits pre h (truncated pkt l fin) post (offset8 pkt) fin := by
  have hstart : fragStart pkt = 8 * offset8 pkt := Nat.mul_comm _ _
  have ha := hL.atHole ho
  refine ⟨by omega, ?_, overlap_of_not_noOverlap hov hlen hfin, ?_, ?_⟩
  · intro g hg
    rw [← hstart]
    exact hpre g hg
  · intro g hg
    have hle := hnext (ha.next_ne_zero (mem_indices hg))
    rw [ha.next, hfin] at hle
    cases post with
    | nil => cases hg
    | cons f post =>
      rw [indices_cons, headD_cons] at hle
      have hfg : f.1 ≤ g.1 := by
        rcases mem_cons.1 hg with rfl | hg
        · exact le_rfl
        · have ho' := (orderedHoles_cons.1 (orderedHoles_append.1 ho).2.1).2.2
          have hlt := (orderedHoles_cons.1 ho').2.1 g hg
          have hne := (orderedHoles_cons.1 ho').1.1
          omega
      omega
  · intro hlt
    unfold truncated at hlt
    split at hlt
    · rename_i hmf
      have hlast : (holeAt s.buf h).lastByte = l := hL.last (h, l) (mem_append_right _ mem_cons_self)
      have hcond := hrest hmf
      rw [hfin, hlast] at hcond
      obtain ⟨h8, hmax⟩ := hcond (by omega)
      have hsum : IP_MAXUDP + IP_HDR_SIZE = IP_PKTSIZE := rfl
      refine ⟨by omega, decide_eq_true ?_⟩
      unfold holeAddr
      omega
    · exact absurd hlt (lt_irrefl _)

/-- What one call keeps, from a buffer that holds a list of holes. -/
theorem netDefragment_intact (hL : Linked (s.begin pkt) hs) (ho : OrderedHoles hs) (hne : hs ≠ []) (hfar : tooFar pkt = false)
    (hok : ∀ h, findHole (s.begin pkt).buf (fragStart pkt) (2 ^ 16) (s.begin pkt).firstHole = some (some h) → noOverlap pkt h = false →
      0 ≤ fragLen pkt ∧
      ((holeAt (s.begin pkt).buf h).nextHole ≠ 0 → fragStart pkt + fragLen pkt ≤ 8 * (holeAt (s.begin pkt).buf h).nextHole) ∧
      (moreFragments pkt = true → fragStart pkt + fragLen pkt < (holeAt (s.begin pkt).buf h).lastByte →
        (fragStart pkt + fragLen pkt) % 8 = 0 ∧ fragStart pkt + fragLen pkt + 8 ≤ IP_MAXUDP)) :
    ∃ s' out, s.netDefragment pkt = some (s', out) ∧ (out.isSome = true ∨ ∃ hs, hs ≠ [] ∧ Linked s' hs ∧ OrderedHoles hs) := by
  rcases exists_split_at hs (fragStart pkt) with hall | ⟨pre, h, l, post, rfl, hpre, hl⟩
  · exact ⟨_, _, netDefragment_eq hfar (hL.findHole_eq_none ho hne hall), Or.inr ⟨hs, hne, hL, ho⟩⟩
  · have hfind := hL.findHole_eq ho hpre hl
    have heq := netDefragment_eq hfar hfind
    cases hov : noOverlap pkt h with
    | true =>
      simp only [hov, if_true] at heq
      exact ⟨_, _, heq, Or.inr ⟨_, hne, hL, ho⟩⟩
    | false =>
      simp only [hov, Bool.false_eq_true, if_false] at heq
      obtain ⟨fin, hfin, hmax⟩ := exists_fin hfar
      obtain ⟨hlen, hnext, hrest⟩ := hok h hfind hov
      have hf := fragFits_of_ok hL ho hpre hov hfin hlen hnext hrest
      obtain ⟨s', hadd, hL', -, -⟩ := addFragment_linked hL ho hf hlen hfin hmax
      refine ⟨s', _, heq.trans hadd, ?_⟩
      by_cases hnil : fixed pre h (truncated pkt l fin) post (offset8 pkt) fin = []
      · exact Or.inl (by rw [if_pos hnil]; rfl)
      · refine Or.inr ⟨_, hnil, hL' hnil, hf.ordered ho (truncated_cases pkt l fin)⟩

theorem step_intact (h : Intact r) (hok : DefragOk r pkt) : Intact (r.step pkt) := by
  unfold Reassembly.step
  cases hrec : netReceiveOk pkt with
  | false => exact h
  | true =>
    simp only [if_true]
    cases hfar : tooFar pkt with
    | true =>
      have heq : r.defrag.netDefragment pkt = some (r.defrag, none) := by
        rw [Defrag.netDefragment, hfar]
        rfl
      rw [heq]
      refine ⟨h.noFault, h.state.imp_right (Or.imp_left ?_)⟩
      intro hd
      simp [hd]
    | false =>
      obtain ⟨hdone, hcond⟩ := hok hrec hfar
      obtain ⟨hs, hne, hL, ho⟩ : ∃ hs, hs ≠ [] ∧ Linked (r.defrag.begin pkt) hs ∧ OrderedHoles hs := by
        cases hnew : r.defrag.isNew pkt with
        | true => exact ⟨_, cons_ne_nil _ _, begin_linked hnew⟩
        | false =>
          rw [begin_of_not_new hnew]
          rcases h.state with h0 | hd | hs
          · simp [Defrag.isNew, h0] at hnew
          · rw [hdone hd] at hnew
            cases hnew
          · exact hs
      obtain ⟨s', out, heq, hintact⟩ := netDefragment_intact hL ho hne hfar hcond
      rw [heq]
      refine ⟨h.noFault, Or.inr (hintact.imp_left ?_)⟩
      intro hout
      simp [hout]

end DefragSafeAux

open DefragSafeAux

/-- In a run of packets that all meet the condition, every access is inside `pkt_buff` and every walk ends. -/
theorem defrag_stays_inside {pkts : List (List UInt8)} {r : Reassembly}
    (hrun : Exec (Guarded DefragOk (stepFn Reassembly.step)) Reassembly.start pkts r) : r.fault = false := by
  have hstep : ∀ r pkt r', Intact r → Guarded DefragOk (stepFn Reassembly.step) r pkt r' → Intact r' := by
    rintro r pkt _ h ⟨hok, rfl⟩
    exact step_intact h hok
  exact (hrun.invariant hstep ⟨rfl, Or.inl rfl⟩).noFault

/-- A first fragment of 8 bytes. -/
def firstPacket : List UInt8 :=
  [69, 0, 0, 28, 0, 1, 32, 0, 64, 17, 70, 206, 10, 0, 0, 1, 10, 0, 0, 2, 1, 2, 3, 4, 5, 6, 7, 8]

/-- A last fragment of 4 bytes behind it, with padding. -/
def lastPacket : List UInt8 :=
  [69, 0, 0, 24, 0, 1, 0, 1, 64, 17, 102, 209, 10, 0, 0, 1, 10, 0, 0, 2, 9, 10, 11, 12, 0, 0, 0, 0]

theorem defrag_stays_inside_two : ∃ r, Exec (Guarded DefragOk (stepFn Reassembly.step)) Reassembly.start [firstPacket, lastPacket] r ∧
      r.done = true ∧ r.fault = false := by
  have hrun : Exec (Guarded DefragOk (stepFn Reassembly.step)) Reassembly.start [firstPacket, lastPacket]
      ((Reassembly.start.step firstPacket).step lastPacket) := by
    refine .cons ⟨fun _ _ => ⟨nofun, ?_⟩, rfl⟩ (.single ⟨fun _ _ => ⟨nofun, ?_⟩, rfl⟩)
    · intro h hfind _
      have h0 : findHole (Reassembly.start.defrag.begin firstPacket).buf (fragStart firstPacket) (2 ^ 16)
          (Reassembly.start.defrag.begin firstPacket).firstHole = some (some 0) := by decide
      obtain rfl : 0 = h := by simpa using h0.symm.trans hfind
      decide
    · intro h hfind _
      have h1 : findHole ((Reassembly.start.step firstPacket).defrag.begin lastPacket).buf (fragStart lastPacket) (2 ^ 16)
          ((Reassembly.start.step firstPacket).defrag.begin lastPacket).firstHole = some (some 1) := by decide
      obtain rfl : 1 = h := by simpa using h1.symm.trans hfind
      decide
  exact ⟨_, hrun, by decide, defrag_stays_inside hrun⟩

/-- A fragment at byte 24 whose `ip_len` is one less than the size of a header. -/
def shortPacket : List UInt8 :=
  [69, 0, 0, 19, 0, 1, 32, 3, 64, 17, 70, 212, 10, 0, 0, 1, 10, 0, 0, 2, 0, 0, 0, 0, 0, 0, 0, 0]

/-- One packet makes the function copy almost 2^32 bytes. -/
theorem defrag_stays_inside_false : ∃ r, Exec (stepFn Reassembly.step) Reassembly.start [shortPacket] r ∧ r.fault = true :=
  ⟨_, .single rfl, by decide⟩

end

/-!
## Reassembly gives back the payload

The list of holes covers exactly the bytes that are missing, as long as no hole is lost.
-/

section

open Lib DefragAux AssemblyAux

/-- The variables of `__NetDefragment`, the fragments delivered so far, and what the last call returned: `none` for an access outside
the buffer, else `*lenp` if it returned the packet. -/
structure Delivery where
  defrag : Defrag
  received : List Nat
  out : Option (Option Nat)

/-- A fragment is delivered, while some are still to come. -/
def Delivery.step (f : Fragments) (id : Nat) (s : Delivery) (d : Nat × List UInt8) (s' : Delivery) : Prop :=
  f.Carries id d.1 d.2 ∧ ¬f.Complete s.received ∧
    s' = { defrag := ((s.defrag.netDefragment d.2).map Prod.fst).getD s.defrag
           received := d.1 :: s.received
           out := (s.defrag.netDefragment d.2).map Prod.snd }

/-- Not a new fragment right behind received ones, before which there are only missing ones. -/
def DeliveryOk (s : Delivery) (d : Nat × List UInt8) : Prop :=
  d.1 ∉ s.received → ¬∃ j, 1 ≤ j ∧ j < d.1 ∧ (∀ i < j, i ∉ s.received) ∧ ∀ i, j ≤ i → i < d.1 → i ∈ s.received

/-- No packet is in progress, or another one. -/
def Fresh (s : Defrag) (id : Nat) : Prop := s.totalLen = 0 ∨ (s.buf 4).toNat * 256 + (s.buf 5).toNat ≠ id

namespace DefragWholeAux

variable {f : Fragments} {id k : Nat} {s : Defrag} {pkt : List UInt8}

theorem isNew_of_fresh (hfresh : Fresh s id) (hc : f.Carries id k pkt) : s.isNew pkt = true := by
  rcases hfresh with h0 | hne
  · simp [Defrag.isNew, h0]
  · by_contra hn
    have hn : s.isNew pkt = false := by simpa using hn
    unfold Defrag.isNew at hn
    simp only [Bool.or_eq_false_iff, decide_eq_false_iff_not, not_not] at hn
    refine hne ?_
    rw [hn.1.2, hn.2]
    exact hc.ipId

/-- Before the first fragment the packet is fresh, and after that the last call did what it should. -/
structure Going (f : Fragments) (id : Nat) (s : Delivery) : Prop where
  start : s.received = [] → Fresh s.defrag id ∧ s.out = some none
  going : s.received ≠ [] → ∃ out, s.out = some out ∧ Delivered f id s.defrag s.received out

/-- The first fragment of a fresh packet meets one hole, from which everything is missing. -/
theorem assembling_begin (hfresh : Fresh s id) (hc : f.Carries id k pkt) : Assembling f id (s.begin pkt) [] [(0, 65535)] := by
  have hnew := isNew_of_fresh hfresh hc
  obtain ⟨hL, ho⟩ := begin_linked hnew
  refine ⟨hL, ho, pairwise_singleton _ _, ?_, ?_, ?_, nofun, nofun⟩
  · intro x
    simp [Covered, Missing, limit]
  · rw [Defrag.begin, if_pos hnew]
    rfl
  · have hhdr : ∀ a < IP_HDR_SIZE, (s.begin pkt).buf a = byteAt pkt a := by
      intro a ha
      rw [Defrag.begin, if_pos hnew]
      refine (congrArg _ (Nat.zero_add a).symm).trans (stored_store _ 0 ((List.range IP_HDR_SIZE).map (byteAt pkt)) a _ ?_)
      rw [getElem?_map, getElem?_range ha, Option.map_some]
    rw [hhdr 4 (by decide), hhdr 5 (by decide)]
    exact hc.ipId

theorem step_going {s s' : Delivery} {d : Nat × List UInt8} (h : Going f id s) (hok : DeliveryOk s d)
    (hs : Delivery.step f id s d s') : Going f id s' := by
  obtain ⟨hc, hinc, rfl⟩ := hs
  obtain ⟨hs, hA⟩ : ∃ hs, Assembling f id (s.defrag.begin d.2) s.received hs := by
    by_cases hnil : s.received = []
    · rw [hnil]
      exact ⟨_, assembling_begin (h.start hnil).1 hc⟩
    · obtain ⟨out, -, hd⟩ := h.going hnil
      obtain ⟨-, hs, hA⟩ := hd.incomplete hinc
      have htot : s.defrag.totalLen ≠ 0 := by
        have hpos := (length_part_pos hc.lt_count).trans_le
          ((Nat.le_add_left _ _).trans ((offset_succ hc.lt_count).symm.le.trans (offset_le_payload hc.lt_count)))
        have hle := payload_le_limit f s.received
        rw [hA.totalLen]
        omega
      rw [begin_of_not_new (isNew_eq_false hA.ipId htot hc)]
      exact ⟨hs, hA⟩
  obtain ⟨t, out, heq, hd⟩ : ∃ t out, s.defrag.netDefragment d.2 = some (t, out) ∧ Delivered f id t (d.1 :: s.received) out := by
    by_cases hk : d.1 ∈ s.received
    · exact netDefragment_again hA hc hk hinc
    · exact netDefragment_new hA hc hk (hok hk)
  rw [heq]
  exact ⟨nofun, fun _ => ⟨out, rfl, hd⟩⟩

end DefragWholeAux

open DefragWholeAux

/-- Fragments of one payload, delivered in an order that meets the condition: the calls return nothing as long as one is missing,
and the packet with the payload once the last one has come. -/
theorem defrag_gives_payload {f : Fragments} {id : Nat} {s : Defrag} {ds : List (Nat × List UInt8)} {r : Delivery}
    (hfresh : Fresh s id) (hrun : Exec (Guarded DeliveryOk (Delivery.step f id)) ⟨s, [], some none⟩ ds r) :
    (¬f.Complete r.received → r.out = some none) ∧
    (f.Complete r.received → r.out = some (some (f.payload.length + IP_HDR_SIZE)) ∧ Stored r.defrag.buf IP_HDR_SIZE f.payload) := by
  have hstep : ∀ s d s', Going f id s → Guarded DeliveryOk (Delivery.step f id) s d s' → Going f id s' := by
    rintro s d s' h ⟨hok, hs⟩
    exact step_going h hok hs
  have h := hrun.invariant hstep ⟨fun _ => ⟨hfresh, rfl⟩, fun hne => absurd rfl hne⟩
  by_cases hnil : r.received = []
  · have hinc : ¬f.Complete r.received := by
      intro hcomp
      have := hcomp 0 (Nat.lt_of_lt_of_le Nat.zero_lt_two f.two)
      rw [hnil] at this
      cases this
    exact ⟨fun _ => (h.start hnil).2, fun hcomp => absurd hcomp hinc⟩
  · obtain ⟨out, hout, hd⟩ := h.going hnil
    refine ⟨?_, fun hcomp => ⟨?_, stored_payload fun k hk => hd.stored k (hcomp k hk)⟩⟩
    · intro hinc
      rw [hout, (hd.incomplete hinc).1]
    · rw [hout, hd.complete hcomp]

/-- A payload of 19 bytes in three fragments. -/
def threeFragments : Fragments where
  parts := [[1, 1, 1, 1, 1, 1, 1, 1], [2, 2, 2, 2, 2, 2, 2, 2], [3, 3, 3]]
  two := by decide
  nonempty := by decide
  aligned := by decide
  fits := by decide

/-- Packets with these fragments. -/
def threePackets : Nat → List UInt8
  | 0 => [69, 0, 0, 28, 0, 1, 32, 0, 64, 17, 70, 206, 10, 0, 0, 1, 10, 0, 0, 2, 1, 1, 1, 1, 1, 1, 1, 1]
  | 1 => [69, 0, 0, 28, 0, 1, 32, 1, 64, 17, 70, 205, 10, 0, 0, 1, 10, 0, 0, 2, 2, 2, 2, 2, 2, 2, 2, 2]
  | _ => [69, 0, 0, 23, 0, 1, 0, 2, 64, 17, 102, 209, 10, 0, 0, 1, 10, 0, 0, 2, 3, 3, 3, 0, 0, 0, 0, 0]

theorem threePackets_carry (k : Nat) (hk : k < 3) : threeFragments.Carries 1 k (threePackets k) := by
  interval_cases k
  all_goals exact ⟨by decide, by decide, by decide, by decide, by decide, by decide⟩

theorem defrag_gives_payload_three : ∃ r, Exec (Guarded DeliveryOk (Delivery.step threeFragments 1)) ⟨⟨fun _ => 0, 0, 0⟩, [], some none⟩
        [(0, threePackets 0), (2, threePackets 2), (2, threePackets 2), (1, threePackets 1)] r ∧
      r.out = some (some 39) ∧ Stored r.defrag.buf IP_HDR_SIZE threeFragments.payload := by
  have hinc : ∀ {r : List Nat}, 1 ∉ r → ¬threeFragments.Complete r := fun h hc => h (hc 1 (by decide))
  obtain ⟨r, hrun, hrec⟩ : ∃ r, Exec (Guarded DeliveryOk (Delivery.step threeFragments 1)) ⟨⟨fun _ => 0, 0, 0⟩, [], some none⟩
      [(0, threePackets 0), (2, threePackets 2), (2, threePackets 2), (1, threePackets 1)] r ∧ r.received = [1, 2, 2, 0] := by
    refine ⟨_, .cons ⟨?_, threePackets_carry 0 (by decide), hinc (by decide), rfl⟩
      (.cons ⟨?_, threePackets_carry 2 (by decide), hinc (by simp), rfl⟩
      (.cons ⟨?_, threePackets_carry 2 (by decide), hinc (by simp), rfl⟩
      (.single ⟨?_, threePackets_carry 1 (by decide), hinc (by simp), rfl⟩))), rfl⟩
    · rintro - ⟨j, -, hj, -⟩
      exact Nat.not_lt_zero j hj
    · rintro - ⟨j, h1, -, h0, -⟩
      exact h0 0 h1 mem_cons_self
    · rintro - ⟨j, h1, -, h0, -⟩
      exact h0 0 h1 (by simp)
    · rintro - ⟨j, h1, hj, -⟩
      exact absurd hj (not_lt.2 h1)
  have hcomp : threeFragments.Complete r.received := by
    rw [hrec]
    intro k hk
    have hk' : k < 3 := hk
    interval_cases k <;> simp
  exact ⟨r, hrun, (defrag_gives_payload (Or.inl rfl) hrun).2 hcomp⟩

/-- The second and then the third fragment are delivered, and the packet is returned without the first. -/
theorem defrag_gives_payload_false : ∃ r, Exec (Delivery.step threeFragments 1) ⟨⟨fun _ => 0, 0, 0⟩, [], some none⟩
        [(1, threePackets 1), (2, threePackets 2)] r ∧
      ¬threeFragments.Complete r.received ∧ r.out = some (some 39) := by
  have hinc : ∀ {r : List Nat}, 0 ∉ r → ¬threeFragments.Complete r := fun h hc => h (hc 0 (by decide))
  refine ⟨_, .cons ⟨threePackets_carry 1 (by decide), hinc (by simp), rfl⟩
    (.single ⟨threePackets_carry 2 (by decide), hinc (by simp), rfl⟩), hinc (by simp), ?_⟩
  decide

end

end UBoot

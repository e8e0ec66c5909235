import UBoot.Lemmas.HoleList
import Mathlib.Data.List.Perm.Subperm

/-!
# One call of `__NetDefragment`

The walk finds the first hole of the list that ends at the beginning of the fragment or later, and the rest of the function takes
the fragment out of this hole, whichever of its branches it goes through, and copies it.
-/

namespace UBoot

open Lib List Option

namespace DefragAux

variable {s : Defrag} {pkt : List UInt8} {pre post hs : List (Nat × Nat)} {h l l₀ o fin : Nat}
variable {start : Nat} {rest : List (Nat × Nat)} {s' : Defrag}

/-! ## The walk -/

theorem findHole_of_seg {buf : Nat → UInt8} {p n : Nat} (hn : n = (indices rest).headD 0)
    (hseg : Seg (fun i => (holeAt buf i).nextHole) (fun i => (holeAt buf i).prevHole) p (indices pre) n)
    (hlast : ∀ g ∈ pre, (holeAt buf g.1).lastByte = g.2) (hin : ∀ g ∈ pre, inBuff g.1 = true)
    (hpre : ∀ g ∈ pre, g.2 < start) (hnz : ∀ i ∈ (indices (pre ++ rest)).tail, i ≠ 0) (hne : rest ≠ []) (fuel : Nat) :
    findHole buf start (fuel + pre.length) ((indices (pre ++ rest)).headD 0) = findHole buf start fuel n := by
  induction pre generalizing p with
  | nil => simp [hn]
  | cons g pre ih =>
    obtain ⟨-, hnx, hseg⟩ := hseg
    rw [forall_mem_cons] at hlast hin hpre
    have hnext : (holeAt buf g.1).nextHole = (indices (pre ++ rest)).headD 0 := by
      rw [indices_append, headD_append, ← hn]
      exact hnx
    have hzero : (indices (pre ++ rest)).headD 0 ≠ 0 := by
      obtain ⟨i, is, his⟩ : ∃ i is, indices (pre ++ rest) = i :: is := by
        refine exists_cons_of_ne_nil ?_
        intro h0
        exact hne (append_eq_nil_iff.1 (map_eq_nil_iff.1 h0)).2
      refine hnz _ ?_
      rw [cons_append, indices_cons, tail_cons, his]
      exact mem_cons_self
    have hnz' : ∀ i ∈ (indices (pre ++ rest)).tail, i ≠ 0 := by
      intro i hi
      refine hnz i ?_
      rw [cons_append, indices_cons, tail_cons]
      exact mem_of_mem_tail hi
    rw [length_cons, ← Nat.add_assoc, cons_append, indices_cons, headD_cons, findHole, access_eq hin.1,
      bind_eq_bind, bind_some, hlast.1, if_pos hpre.1, hnext, if_neg hzero]
    exact ih hseg hlast.2 hin.2 hpre.2 hnz'

theorem OrderedHoles.tail_ne_zero (ho : OrderedHoles hs) : ∀ i ∈ (indices hs).tail, i ≠ 0 := by
  cases hs with
  | nil => nofun
  | cons g hs =>
    intro i hi
    rw [indices_cons, tail_cons] at hi
    obtain ⟨f, hf, rfl⟩ := mem_map.1 hi
    obtain ⟨⟨hne, -⟩, hlt, -⟩ := orderedHoles_cons.1 ho
    have := hlt f hf
    omega

theorem OrderedHoles.length_lt (ho : OrderedHoles hs) : hs.length < 2 ^ 16 := by
  have hsub : indices hs ⊆ List.range 2058 := by
    intro i hi
    obtain ⟨g, hg, rfl⟩ := mem_map.1 hi
    have hb := of_decide_eq_true (ho.inBuff g hg)
    unfold holeAddr IP_PKTSIZE IP_HDR_SIZE at hb
    exact mem_range.2 (by omega)
  have hle := (ho.nodup.subperm hsub).length_le
  rw [length_range, indices, length_map] at hle
  omega

theorem Linked.findHole_append (hL : Linked s (pre ++ rest))
    (ho : OrderedHoles (pre ++ rest)) (hpre : ∀ g ∈ pre, g.2 < start) (hne : rest ≠ []) :
    ∃ fuel, findHole s.buf start (2 ^ 16) s.firstHole = findHole s.buf start (fuel + 1) ((indices rest).headD 0) := by
  have hlen := ho.length_lt
  rw [length_append] at hlen
  have hrest := length_pos_of_ne_nil hne
  obtain ⟨fuel, hfuel⟩ : ∃ fuel, 2 ^ 16 = fuel + 1 + pre.length := ⟨2 ^ 16 - 1 - pre.length, by omega⟩
  have hlinks := hL.links
  rw [indices_append, seg_append] at hlinks
  refine ⟨fuel, ?_⟩
  rw [hfuel, hL.first]
  exact findHole_of_seg rfl hlinks.1 (fun g hg => hL.last g (mem_append_left _ hg))
    (fun g hg => ho.inBuff g (mem_append_left _ hg)) hpre ho.tail_ne_zero hne (fuel + 1)

/-- The walk ends at the first hole that ends at `start` or later. -/
theorem Linked.findHole_eq (hL : Linked s (pre ++ (h, l) :: post)) (ho : OrderedHoles (pre ++ (h, l) :: post))
    (hpre : ∀ g ∈ pre, g.2 < start) (hl : start ≤ l) :
    findHole s.buf start (2 ^ 16) s.firstHole = some (some h) := by
  obtain ⟨fuel, hfuel⟩ := hL.findHole_append ho hpre (cons_ne_nil _ _)
  have hm : (h, l) ∈ pre ++ (h, l) :: post := mem_append_right _ mem_cons_self
  have hlast : (holeAt s.buf h).lastByte = l := hL.last (h, l) hm
  rw [hfuel, indices_cons, headD_cons, findHole, access_eq (ho.inBuff (h, l) hm), bind_eq_bind, bind_some, hlast, if_neg (not_lt.2 hl)]

theorem Linked.findHole_eq_none (hL : Linked s hs) (ho : OrderedHoles hs) (hne : hs ≠ [])
    (hall : ∀ g ∈ hs, g.2 < start) : findHole s.buf start (2 ^ 16) s.firstHole = some none := by
  obtain ⟨pre, g, rfl⟩ : ∃ pre g, hs = pre ++ [g] := ⟨_, _, (dropLast_concat_getLast hne).symm⟩
  obtain ⟨fuel, hfuel⟩ := hL.findHole_append ho (fun f hf => hall f (mem_append_left _ hf)) (cons_ne_nil _ _)
  have hm : g ∈ pre ++ [g] := mem_append_right _ mem_cons_self
  have hlinks := hL.links
  rw [indices_append, seg_append] at hlinks
  have hnext : (holeAt s.buf g.1).nextHole = 0 := hlinks.2.2.1
  rw [hfuel, indices_cons, headD_cons, findHole, access_eq (ho.inBuff g hm), bind_eq_bind, bind_some,
    hL.last g hm, if_pos (hall g hm), if_pos hnext]

/-! ## The fragment -/

/-- The descriptors of the holes that are left are not where the fragment goes. -/
theorem FragFits.disjoint (hf : FragFits pre h l post o fin) (ho : OrderedHoles (pre ++ (h, l₀) :: post)) :
    ∀ g ∈ fixed pre h l post o fin, 8 * g.1 + 8 ≤ 8 * o ∨ fin ≤ 8 * g.1 := by
  have hpre : ∀ g ∈ pre, 8 * g.1 + 8 ≤ 8 * o := by
    intro g hg
    have h1 := hf.before g hg
    have h2 := ho.nonempty g (mem_append_left _ hg)
    omega
  intro g hg
  unfold fixed at hg
  split_ifs at hg with h1 h2 h3
  · rcases mem_append.1 hg with hg | hg
    · exact Or.inl (hpre g ((keep_sublist pre).subset hg))
    · exact Or.inr (hf.after g hg)
  · rcases mem_append.1 hg with hg | hg
    · exact Or.inl (hpre g hg)
    · rcases mem_cons.1 hg with rfl | hg
      · exact Or.inl (by simp only; omega)
      · exact Or.inr (hf.after g hg)
  · rcases mem_append.1 hg with hg | hg
    · exact Or.inl (hpre g ((keep_sublist pre).subset hg))
    · rcases mem_cons.1 hg with rfl | hg
      · exact Or.inr (by have := (hf.rest (not_le.1 h2)).1; simp only; omega)
      · exact Or.inr (hf.after g hg)
  · rcases mem_append.1 hg with hg | hg
    · exact Or.inl (hpre g hg)
    · rcases mem_cons.1 hg with rfl | hg
      · exact Or.inl (by simp only; omega)
      · rcases mem_cons.1 hg with rfl | hg
        · exact Or.inr (by have := (hf.rest (not_le.1 h2)).1; simp only; omega)
        · exact Or.inr (hf.after g hg)

/-- `newh`, the index right behind the fragment. -/
theorem newh_eq (hlen : 0 ≤ fragLen pkt) (hfin : (fragStart pkt : Int) + fragLen pkt = fin) :
    ((offset8 pkt : Int) + (fragLen pkt).tdiv 8).toNat = fin / 8 := by
  obtain ⟨n, hn⟩ := Int.eq_ofNat_of_zero_le hlen
  have hdiv : (fragLen pkt).tdiv 8 = ((n / 8 : Nat) : Int) := by
    rw [hn]
    rfl
  rw [hdiv]
  unfold fragStart at hfin
  omega

/-- Where a part of the hole is left behind the fragment, there is a place for its descriptor that no other hole has. -/
theorem FragFits.newh_fresh (hf : FragFits pre h l post o fin) (ho : OrderedHoles (pre ++ (h, l) :: post)) (hlt : fin < l) :
    inBuff (fin / 8) = true ∧ fin / 8 ≠ 0 ∧ fin / 8 ∉ indices pre ∧ h ≠ fin / 8 ∧ fin / 8 ∉ indices post := by
  obtain ⟨h8, hb⟩ := hf.rest hlt
  have hov := hf.overlap
  refine ⟨hb, by omega, ?_, by omega, ?_⟩
  · intro hm
    obtain ⟨g, hg, he⟩ := mem_map.1 hm
    have h1 := hf.before g hg
    have h2 := ho.nonempty g (mem_append_left _ hg)
    have h3 := hf.start_le
    omega
  · intro hm
    obtain ⟨g, hg, he⟩ := mem_map.1 hm
    have h1 : l ≤ 8 * g.1 := (orderedHoles_cons.1 (orderedHoles_append.1 ho).2.1).2.1 g hg
    omega

/-- The hole list is fixed, and says whether no hole is left. -/
theorem fixHoles_linked (hL : Linked s (pre ++ (h, l) :: post)) (ho : OrderedHoles (pre ++ (h, l₀) :: post))
    (hl : l = l₀ ∨ l ≤ fin) (hf : FragFits pre h l post (offset8 pkt) fin) (hlen : 0 ≤ fragLen pkt)
    (hfin : (fragStart pkt : Int) + fragLen pkt = fin) (hmax : fin < 65536) :
    ∃ s', s.fixHoles h pkt = some (s', decide (fixed pre h l post (offset8 pkt) fin = [])) ∧
      (fixed pre h l post (offset8 pkt) fin ≠ [] → Linked s' (fixed pre h l post (offset8 pkt) fin)) ∧
      SameOff (indices (fixed pre h l post (offset8 pkt) fin) ++ indices (pre ++ (h, l) :: post)) s.buf s'.buf ∧
      s'.totalLen = s.totalLen := by
  have ha := hL.atHole ho
  have hlast : (holeAt s.buf h).lastByte = l := hL.last (h, l) (mem_append_right _ mem_cons_self)
  have hstart : fragStart pkt = 8 * offset8 pkt := Nat.mul_comm _ _
  have hcmp : ((l : Int) ≤ (fragStart pkt : Int) + fragLen pkt) ↔ l ≤ fin := by
    rw [hfin]
    exact Int.ofNat_le
  unfold Defrag.fixHoles
  simp only [hlast, hcmp, newh_eq hlen hfin]
  by_cases h1 : offset8 pkt ≤ h ∧ l ≤ fin
  · have hfix : fixed pre h l post (offset8 pkt) fin = keep pre ++ post := if_pos h1
    rw [if_pos h1]
    by_cases hnil : keep pre ++ post = []
    · refine ⟨s, ?_, fun hne => absurd (hfix.trans hnil) hne, SameOff.refl _ _, rfl⟩
      obtain ⟨hk, hp⟩ := append_eq_nil_iff.1 hnil
      rw [Defrag.removeHole, if_pos ⟨ha.prev.trans ((keep_eq_nil_iff pre).1 hk), ha.next_eq_zero_iff.2 hp⟩, hfix, hnil]
      rfl
    · obtain ⟨s', hs', hL', hsame, htot⟩ := removeHole_linked hL ho hnil
      refine ⟨s', ?_, fun _ => hfix ▸ hL', hsame.mono fun i hi => mem_append_right _ hi, htot⟩
      rw [hs', hfix, decide_eq_false hnil]
  · by_cases h2 : l ≤ fin
    · have ho' : ¬offset8 pkt ≤ h := fun ho => h1 ⟨ho, h2⟩
      have hfix : fixed pre h l post (offset8 pkt) fin = pre ++ (h, 8 * offset8 pkt) :: post := by
        rw [fixed, if_neg h1, if_pos h2]
      have hne : pre ++ (h, 8 * offset8 pkt) :: post ≠ [] := append_ne_nil_of_right_ne_nil _ (cons_ne_nil _ _)
      rw [if_neg h1, if_pos h2, hfix, decide_eq_false hne, hstart]
      have hle := hf.start_le
      refine ⟨_, rfl, fun _ => setLastByte_linked hL ho (by omega), sameOff_setLastByte ?_, rfl⟩
      exact mem_append_right _ (mem_indices (h := (h, l)) (mem_append_right _ mem_cons_self))
    · obtain rfl := hl.resolve_right h2
      obtain ⟨hb, hn0, hpn, hhn, hqn⟩ := hf.newh_fresh ho (not_le.1 h2)
      have hmem : ∀ i ∈ fin / 8 :: indices (pre ++ (h, l) :: post), fin / 8 ∈ indices (fixed pre h l post (offset8 pkt) fin) →
          i ∈ indices (fixed pre h l post (offset8 pkt) fin) ++ indices (pre ++ (h, l) :: post) := by
        intro i hi hm
        rcases mem_cons.1 hi with rfl | hi
        · exact mem_append_left _ hm
        · exact mem_append_right _ hi
      by_cases h3 : offset8 pkt ≤ h
      · have hfix : fixed pre h l post (offset8 pkt) fin = keep pre ++ (fin / 8, l) :: post := by
          rw [fixed, if_neg h1, if_neg h2, if_pos h3]
        have hne : keep pre ++ (fin / 8, l) :: post ≠ [] := append_ne_nil_of_right_ne_nil _ (cons_ne_nil _ _)
        obtain ⟨s', hs', hL', hsame, htot⟩ := moveHole_linked hL ho hb hn0 hpn hqn
        refine ⟨s', ?_, fun _ => hfix ▸ hL', hsame.mono fun i hi => hmem i hi ?_, htot⟩
        · rw [if_neg h1, if_neg h2, if_pos h3, hs', hfix, decide_eq_false hne]
          rfl
        · rw [hfix]
          exact mem_indices (h := (fin / 8, l)) (mem_append_right _ mem_cons_self)
      · have hfix : fixed pre h l post (offset8 pkt) fin = pre ++ (h, 8 * offset8 pkt) :: (fin / 8, l) :: post := by
          rw [fixed, if_neg h1, if_neg h2, if_neg h3]
        have hne : pre ++ (h, 8 * offset8 pkt) :: (fin / 8, l) :: post ≠ [] :=
          append_ne_nil_of_right_ne_nil _ (cons_ne_nil _ _)
        have hle := hf.start_le
        obtain ⟨s', hs', hL', hsame, htot⟩ := splitHole_linked (8 * offset8 pkt) hL ho hb hn0 hpn hhn hqn (by omega)
        refine ⟨s', ?_, fun _ => hfix ▸ hL', hsame.mono fun i hi => hmem i hi ?_, htot⟩
        · rw [if_neg h1, if_neg h2, if_neg h3, hstart, hs', hfix, decide_eq_false hne]
          rfl
        · rw [hfix]
          exact mem_indices (h := (fin / 8, l)) (mem_append_right _ (mem_cons_of_mem _ mem_cons_self))

theorem Linked.congr (hL : Linked s hs) (hfirst : s'.firstHole = s.firstHole)
    (hb : ∀ i ∈ indices hs, holeAt s'.buf i = holeAt s.buf i) : Linked s' hs := by
  refine ⟨hfirst.trans hL.first, hL.links.congr ?_ ?_, ?_⟩
  · intro i hi
    rw [hb i hi]
  · intro i hi
    rw [hb i hi]
  · intro g hg
    rw [hb g.1 (mem_indices hg)]
    exact hL.last g hg

/-- The end of the hole `h` after the last fragment has truncated it. -/
def truncated (pkt : List UInt8) (l₀ fin : Nat) : Nat := if moreFragments pkt then l₀ else fin

theorem truncated_cases (pkt : List UInt8) (l₀ fin : Nat) : truncated pkt l₀ fin = l₀ ∨ truncated pkt l₀ fin ≤ fin := by
  unfold truncated
  split
  · exact Or.inl rfl
  · exact Or.inr le_rfl

theorem truncateHole_linked (hL : Linked s (pre ++ (h, l₀) :: post)) (ho : OrderedHoles (pre ++ (h, l₀) :: post))
    (hfin : (fragStart pkt : Int) + fragLen pkt = fin) (hmax : fin < 65536) :
    Linked (s.truncateHole h pkt) (pre ++ (h, truncated pkt l₀ fin) :: post) ∧
      (s.truncateHole h pkt).totalLen = (if moreFragments pkt then s.totalLen else fin) ∧
      SameOff (indices (pre ++ (h, l₀) :: post)) s.buf (s.truncateHole h pkt).buf := by
  unfold Defrag.truncateHole truncated
  split
  · exact ⟨hL, rfl, SameOff.refl _ _⟩
  · have htoNat : ((fragStart pkt : Int) + fragLen pkt).toNat = fin := by
      rw [hfin]
      rfl
    simp only [htoNat]
    refine ⟨(setLastByte_linked hL ho hmax).congr rfl fun _ _ => rfl, Nat.mod_eq_of_lt hmax, sameOff_setLastByte ?_⟩
    exact mem_indices (h := (h, l₀)) (mem_append_right _ mem_cons_self)

/-- The bytes of a fragment. -/
def fragData (pkt : List UInt8) : List UInt8 := (pkt.drop IP_HDR_SIZE).take (fragLen pkt).toNat

/-- What `addFragment` does to the bytes of the buffer, for a fragment up to `fin` and descriptors at `touched`. -/
structure Copied (s s' : Defrag) (pkt : List UInt8) (fin : Nat) (touched : List Nat) : Prop where
  header : ∀ a < IP_HDR_SIZE, a ≠ 2 → a ≠ 3 → s'.buf a = s.buf a
  data : Stored s'.buf (IP_HDR_SIZE + fragStart pkt) (fragData pkt)
  same : ∀ a, IP_HDR_SIZE ≤ a → a < IP_HDR_SIZE + fragStart pkt ∨ IP_HDR_SIZE + fin ≤ a →
    (∀ i ∈ touched, a < holeAddr i ∨ holeAddr i + 8 ≤ a) → s'.buf a = s.buf a

theorem Copied.finish {touched : List Nat} (hc : Copied s s' pkt fin touched) : Copied s s'.finish pkt fin touched := by
  have hout : ∀ a, a ≠ 2 → a ≠ 3 → s'.finish.buf a = s'.buf a := by
    intro a h2 h3
    refine store_of_outside ?_
    simp only [length_cons, length_nil]
    omega
  refine ⟨?_, ?_, ?_⟩
  · intro a ha h2 h3
    rw [hout a h2 h3]
    exact hc.header a ha h2 h3
  · intro i x hx
    rw [hout _ (by unfold IP_HDR_SIZE; omega) (by unfold IP_HDR_SIZE; omega)]
    exact hc.data i x hx
  · intro a ha
    have h20 : IP_HDR_SIZE = 20 := rfl
    rw [hout a (by omega) (by omega)]
    exact hc.same a ha

/-- A fragment that fits is taken out of the hole and copied. The packet is returned if no hole is left. -/
theorem addFragment_linked (hL : Linked s (pre ++ (h, l₀) :: post)) (ho : OrderedHoles (pre ++ (h, l₀) :: post))
    (hf : FragFits pre h (truncated pkt l₀ fin) post (offset8 pkt) fin) (hlen : 0 ≤ fragLen pkt)
    (hfin : (fragStart pkt : Int) + fragLen pkt = fin) (hmax : fin ≤ IP_MAXUDP) :
    ∃ s', s.addFragment h pkt = some (s', if fixed pre h (truncated pkt l₀ fin) post (offset8 pkt) fin = [] then some (s'.totalLen + IP_HDR_SIZE)
          else none) ∧
      (fixed pre h (truncated pkt l₀ fin) post (offset8 pkt) fin ≠ [] → Linked s' (fixed pre h (truncated pkt l₀ fin) post (offset8 pkt) fin)) ∧
      s'.totalLen = (if moreFragments pkt then s.totalLen else fin) ∧
      Copied s s' pkt fin (indices (fixed pre h (truncated pkt l₀ fin) post (offset8 pkt) fin) ++ indices (pre ++ (h, l₀) :: post)) := by
  have hmax' : fin < 65536 := lt_of_le_of_lt hmax (by decide)
  -- after the truncation
  obtain ⟨hL₁, htot₁, hsame₁⟩ := truncateHole_linked hL ho hfin hmax'
  -- after the list was fixed
  obtain ⟨s₂, hs₂, hL₂, hsame₂, htot₂⟩ := fixHoles_linked hL₁ ho (truncated_cases pkt l₀ fin) hf hlen hfin hmax'
  rw [indices_middle pre post h (truncated pkt l₀ fin), ← indices_middle pre post h l₀] at hsame₂
  -- after the fragment was copied
  obtain ⟨s₃, hs₃⟩ : ∃ s₃ : Defrag, s₃ = { s₂ with buf := store s₂.buf (IP_HDR_SIZE + fragStart pkt) (fragData pkt) } :=
    ⟨_, rfl⟩
  have hbuf₃ : s₃.buf = store s₂.buf (IP_HDR_SIZE + fragStart pkt) (fragData pkt) := by
    rw [hs₃]
  have hcopy : s₂.copyFragment pkt = some s₃ := by
    have hsum : IP_MAXUDP + IP_HDR_SIZE = IP_PKTSIZE := rfl
    rw [Defrag.copyFragment, if_pos ⟨hlen, by omega⟩, hs₃]
    rfl
  have hdata : fragStart pkt + (fragData pkt).length ≤ fin := by
    have hle : (fragData pkt).length ≤ (fragLen pkt).toNat := length_take_le _ _
    omega
  have htot₃ : s₃.totalLen = if moreFragments pkt then s.totalLen else fin := by
    rw [hs₃]
    exact htot₂.trans htot₁
  have hc : Copied s s₃ pkt fin (indices (fixed pre h (truncated pkt l₀ fin) post (offset8 pkt) fin) ++ indices (pre ++ (h, l₀) :: post)) := by
    refine ⟨?_, hbuf₃ ▸ stored_store _ _ _, ?_⟩
    · intro a ha _ _
      have hout : ∀ is : List Nat, ∀ i ∈ is, a < holeAddr i ∨ holeAddr i + 8 ≤ a := fun _ i _ =>
        Or.inl (lt_of_lt_of_le ha (Nat.le_add_right _ _))
      rw [hbuf₃, store_of_outside (Or.inl (lt_of_lt_of_le ha (Nat.le_add_right _ _))), hsame₂ a (hout _), hsame₁ a (hout _)]
    · intro a _ ha ht
      rw [hbuf₃, store_of_outside (by omega), hsame₂ a ht, hsame₁ a fun i hi => ht i (mem_append_right _ hi)]
  have hL₃ : fixed pre h (truncated pkt l₀ fin) post (offset8 pkt) fin ≠ [] →
      Linked s₃ (fixed pre h (truncated pkt l₀ fin) post (offset8 pkt) fin) := by
    intro hne
    rw [hs₃]
    refine (hL₂ hne).congr rfl fun i hi => holeAt_store ?_
    obtain ⟨g, hg, rfl⟩ := mem_map.1 hi
    have hd := hf.disjoint ho g hg
    unfold holeAddr
    unfold fragStart at hdata ⊢
    omega
  have hadd : s.addFragment h pkt = if fixed pre h (truncated pkt l₀ fin) post (offset8 pkt) fin = [] then
      some (s₃.finish, some (s₃.totalLen + IP_HDR_SIZE)) else some (s₃, none) := by
    simp only [Defrag.addFragment, hs₂, bind_eq_bind, bind_some, hcopy, decide_eq_true_eq]
  by_cases hnil : fixed pre h (truncated pkt l₀ fin) post (offset8 pkt) fin = []
  · refine ⟨s₃.finish, ?_, fun hne => absurd hnil hne, htot₃, hc.finish⟩
    rw [hadd, if_pos hnil, if_pos hnil]
    rfl
  · refine ⟨s₃, ?_, hL₃, htot₃, hc⟩
    rw [hadd, if_neg hnil, if_neg hnil]

/-! ## The whole function -/

/-- A new packet begins with one hole, which has no end. -/
theorem begin_linked (hnew : s.isNew pkt = true) : Linked (s.begin pkt) [(0, 65535)] ∧ OrderedHoles [(0, 65535)] := by
  have hhole : holeAt (s.begin pkt).buf 0 = holeAt (setPrevHole (setNextHole (setLastByte s.buf 0 0xffff) 0 0) 0 0) 0 := by
    rw [Defrag.begin, if_pos hnew]
    refine holeAt_store (Or.inr ?_)
    rw [length_map, length_range]
    rfl
  refine ⟨⟨?_, ⟨?_, ?_, seg_nil⟩, ?_⟩, ?_⟩
  · rw [Defrag.begin, if_pos hnew]
    rfl
  · simp [hhole]
  · simp [hhole]
  · intro g hg
    obtain rfl := mem_singleton.1 hg
    simp [hhole]
  · refine orderedHoles_cons.2 ⟨⟨by decide, by decide, Or.inr rfl⟩, nofun, ⟨List.Pairwise.nil, nofun, nofun, nofun⟩⟩

theorem begin_of_not_new (hnew : s.isNew pkt = false) : s.begin pkt = s := by
  rw [Defrag.begin, hnew]
  rfl

theorem exists_split_at (hs : List (Nat × Nat)) (start : Nat) : (∀ g ∈ hs, g.2 < start) ∨
      ∃ pre h l post, hs = pre ++ (h, l) :: post ∧ (∀ g ∈ pre, g.2 < start) ∧ start ≤ l := by
  cases hfind : hs.find? fun g => decide (start ≤ g.2) with
  | none =>
    refine Or.inl ?_
    intro g hg
    have := find?_eq_none.1 hfind g hg
    simpa using this
  | some g =>
    obtain ⟨hg, pre, post, rfl, hpre⟩ := find?_eq_some_iff_append.1 hfind
    refine Or.inr ⟨pre, g.1, g.2, post, rfl, ?_, by simpa using hg⟩
    intro f hf
    simpa using hpre f hf

theorem overlap_of_not_noOverlap (hov : noOverlap pkt h = false) (hlen : 0 ≤ fragLen pkt)
    (hfin : (fragStart pkt : Int) + fragLen pkt = fin) : 8 * h < fin := by
  have hlt := of_decide_eq_false hov
  obtain ⟨n, hn⟩ := Int.eq_ofNat_of_zero_le hlen
  have hdiv : (fragLen pkt + 7).tdiv 8 = (((n + 7) / 8 : Nat) : Int) := by
    rw [hn]
    rfl
  rw [hdiv] at hlt
  unfold fragStart at hfin
  omega

theorem netDefragment_eq (hfar : tooFar pkt = false) {r : Option Nat}
    (hfind : findHole (s.begin pkt).buf (fragStart pkt) (2 ^ 16) (s.begin pkt).firstHole = some r) :
    s.netDefragment pkt = match r with
      | none => some (s.begin pkt, none)
      | some h => if noOverlap pkt h then some (s.begin pkt, none) else (s.begin pkt).addFragment h pkt := by
  rw [Defrag.netDefragment, hfar]
  simp only [Bool.false_eq_true, if_false, hfind]
  cases r <;> rfl

theorem exists_fin (hfar : tooFar pkt = false) : ∃ fin : Nat, (fragStart pkt : Int) + fragLen pkt = fin ∧ fin ≤ IP_MAXUDP := by
  unfold tooFar at hfar
  rw [Bool.or_eq_false_iff, decide_eq_false_iff_not, decide_eq_false_iff_not] at hfar
  obtain ⟨fin, hfin⟩ := Int.eq_ofNat_of_zero_le (Int.not_lt.1 hfar.1)
  exact ⟨fin, hfin, by omega⟩

end DefragAux

end UBoot

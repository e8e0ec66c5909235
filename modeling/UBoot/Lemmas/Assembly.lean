import UBoot.Lemmas.FragmentAux

/-!
# The assembly of a payload

What the buffer holds when some of the fragments of a payload were received, and that a call with a fragment, new or not, leaves it
so. The holes cover the missing bytes, and there are bytes between them.
-/

namespace UBoot

open Lib DefragAux List

namespace AssemblyAux

variable {f : Fragments} {id k x h l o fin : Nat} {s s' : Defrag} {pkt : List UInt8} {received : List Nat} {hs gs pre post : List (Nat × Nat)}
variable {g : Nat × Nat} {t : Defrag}

/-! ## Bytes in holes -/

/-- A byte is in one of the holes. -/
def Covered (hs : List (Nat × Nat)) (x : Nat) : Prop := ∃ g ∈ hs, 8 * g.1 ≤ x ∧ x < g.2

theorem covered_append : Covered (gs ++ hs) x ↔ Covered gs x ∨ Covered hs x := by
  simp only [Covered, mem_append, or_and_right, exists_or]

theorem covered_cons : Covered (g :: hs) x ↔ (8 * g.1 ≤ x ∧ x < g.2) ∨ Covered hs x := by
  simp only [Covered, mem_cons, or_and_right, exists_or, exists_eq_left]

/-- Of the hole `h`, the bytes before and behind the fragment are left. -/
theorem covered_fixed (hho : h ≤ o) (hkeep : o ≤ h → keep pre = pre) (h8 : fin < l → fin % 8 = 0) (x : Nat) :
    Covered (fixed pre h l post o fin) x ↔ (Covered pre x ∨ Covered post x) ∨ (8 * h ≤ x ∧ x < 8 * o) ∨ (fin ≤ x ∧ x < l) := by
  unfold fixed
  split_ifs with h1 h2 h3
  · have hb : ¬(8 * h ≤ x ∧ x < 8 * o) := by omega
    have ha : ¬(fin ≤ x ∧ x < l) := by omega
    rw [hkeep h1.1, covered_append]
    simp only [hb, ha, or_false]
  · have ha : ¬(fin ≤ x ∧ x < l) := by omega
    rw [covered_append, covered_cons]
    simp only [ha, or_false]
    exact or_left_comm.trans or_comm
  · have hb : ¬(8 * h ≤ x ∧ x < 8 * o) := by omega
    have hdiv : 8 * (fin / 8) = fin := by
      have := h8 (not_le.1 h2)
      omega
    rw [hkeep h3, covered_append, covered_cons, hdiv]
    simp only [hb, false_or]
    exact or_left_comm.trans or_comm
  · have hdiv : 8 * (fin / 8) = fin := by
      have := h8 (not_le.1 h2)
      omega
    rw [covered_append, covered_cons, covered_cons, hdiv]
    exact (or_congr_right (or_assoc.symm.trans or_comm)).trans or_assoc.symm

/-- Holes with bytes between them. -/
def Apart (hs : List (Nat × Nat)) : Prop := hs.Pairwise fun g h => g.2 < 8 * h.1

theorem apart_fixed (hap : Apart (pre ++ (h, l) :: post)) (hl : fin ≤ l) (hlt : 8 * o < fin) (hpre : ∀ g ∈ pre, g.2 < 8 * o)
    {l' : Nat} (hl' : l' = l ∨ l' ≤ fin) (h8 : fin < l' → fin % 8 = 0) : Apart (fixed pre h l' post o fin) := by
  obtain ⟨hpp, hcons, hpost⟩ := pairwise_append.1 hap
  obtain ⟨hhp, hqq⟩ := pairwise_cons.1 hcons
  have hk := keep_sublist pre
  have hpq : ∀ g ∈ pre, ∀ q ∈ post, g.2 < 8 * q.1 := fun g hg q hq => hpost g hg q (mem_cons_of_mem _ hq)
  have hph : ∀ g ∈ pre, g.2 < 8 * h := fun g hg => hpost g hg (h, l) mem_cons_self
  have hoq : ∀ q ∈ post, 8 * o < 8 * q.1 := fun q hq => hlt.trans_le (hl.trans (hhp q hq).le)
  have hrest : ∀ g ∈ pre, ¬l' ≤ fin → g.2 < 8 * (fin / 8) := by
    intro g hg hn
    have := hpre g hg
    have := h8 (not_le.1 hn)
    omega
  unfold fixed
  split_ifs with h1 h2 h3
  · exact pairwise_append.2 ⟨hpp.sublist hk, hqq, fun g hg => hpq g (hk.subset hg)⟩
  · refine pairwise_append.2 ⟨hpp, pairwise_cons.2 ⟨hoq, hqq⟩, ?_⟩
    intro g hg
    exact forall_mem_cons.2 ⟨hph g hg, hpq g hg⟩
  · obtain rfl := hl'.resolve_right h2
    refine pairwise_append.2 ⟨hpp.sublist hk, pairwise_cons.2 ⟨hhp, hqq⟩, ?_⟩
    intro g hg
    exact forall_mem_cons.2 ⟨hrest g (hk.subset hg) h2, hpq g (hk.subset hg)⟩
  · obtain rfl := hl'.resolve_right h2
    have h8' := h8 (not_le.1 h2)
    have hof : 8 * o < 8 * (fin / 8) := by omega
    refine pairwise_append.2 ⟨hpp, pairwise_cons.2 ⟨?_, pairwise_cons.2 ⟨hhp, hqq⟩⟩, ?_⟩
    · exact forall_mem_cons.2 ⟨hof, hoq⟩
    · intro g hg
      exact forall_mem_cons.2 ⟨hph g hg, forall_mem_cons.2 ⟨hrest g hg h2, hpq g hg⟩⟩

theorem Apart.covered_pre (hap : Apart (pre ++ (h, l) :: post)) (hx : Covered pre x) : x < 8 * h := by
  obtain ⟨g, hg, -, hx⟩ := hx
  exact hx.trans ((pairwise_append.1 hap).2.2 g hg (h, l) mem_cons_self)

theorem Apart.covered_post (hap : Apart (pre ++ (h, l) :: post)) (hx : Covered post x) : l < x := by
  obtain ⟨g, hg, hx, -⟩ := hx
  exact ((pairwise_cons.1 (pairwise_append.1 hap).2.1).1 g hg).trans_le hx

theorem Apart.not_covered_end (hap : Apart (pre ++ (h, l) :: post)) (hl : 8 * h ≤ l) : ¬Covered (pre ++ (h, l) :: post) l := by
  rw [covered_append, covered_cons]
  rintro (hx | hx | hx)
  · exact absurd (hap.covered_pre hx) (not_lt.2 hl)
  · exact lt_irrefl l hx.2
  · exact lt_irrefl l (hap.covered_post hx)

/-! ## The state of an assembly -/

/-- The holes cover what is missing, and the fragments received are in the buffer. -/
structure Assembling (f : Fragments) (id : Nat) (s : Defrag) (received : List Nat) (hs : List (Nat × Nat)) : Prop where
  linked : Linked s hs
  ordered : OrderedHoles hs
  apart : Apart hs
  covered : ∀ x, Covered hs x ↔ Missing f received x
  totalLen : s.totalLen = limit f received
  ipId : (s.buf 4).toNat * 256 + (s.buf 5).toNat = id
  range : ∀ j ∈ received, j < f.count
  stored : ∀ j ∈ received, Stored s.buf (IP_HDR_SIZE + f.offset j) (f.part j)

/-! ## The fields of a fragment -/

theorem fragStart_eq (hc : f.Carries id k pkt) : fragStart pkt = f.offset k := by
  rw [← hc.offset8, fragStart, Nat.mul_comm]

theorem fragLen_eq (hc : f.Carries id k pkt) : fragLen pkt = ((f.part k).length : Int) := by
  rw [fragLen, hc.ipLen]
  omega

theorem fin_eq (hc : f.Carries id k pkt) : (fragStart pkt : Int) + fragLen pkt = (f.offset (k + 1) : Nat) := by
  rw [fragStart_eq hc, fragLen_eq hc, offset_succ hc.lt_count]
  omega

theorem fin_le (hc : f.Carries id k pkt) : f.offset (k + 1) ≤ IP_MAXUDP :=
  (offset_le_payload hc.lt_count).trans f.fits

theorem tooFar_eq (hc : f.Carries id k pkt) : tooFar pkt = false := by
  have hle := fin_le hc
  unfold tooFar
  rw [fin_eq hc, Bool.or_eq_false_iff, decide_eq_false_iff_not, decide_eq_false_iff_not]
  omega

theorem noOverlap_eq (hc : f.Carries id k pkt) (h : Nat) : noOverlap pkt h = decide (f.offset (k + 1) ≤ 8 * h) := by
  have hdiv : (fragLen pkt + 7).tdiv 8 = ((((f.part k).length + 7) / 8 : Nat) : Int) := by
    rw [fragLen_eq hc]
    rfl
  have ho := hc.offset8
  have hs := offset_succ hc.lt_count
  rw [noOverlap, hdiv, decide_eq_decide]
  omega

theorem fragData_eq (hc : f.Carries id k pkt) : fragData pkt = f.part k := by
  rw [fragData, fragLen_eq hc, Int.toNat_natCast]
  exact hc.data

/-- The bytes of the same `ip_id` are the same. -/
theorem isNew_eq_false (hid : (s.buf 4).toNat * 256 + (s.buf 5).toNat = id) (htot : s.totalLen ≠ 0)
    (hc : f.Carries id k pkt) : s.isNew pkt = false := by
  have hp : (byteAt pkt 4).toNat * 256 + (byteAt pkt 5).toNat = id := hc.ipId
  have h4 := (byteAt pkt 4).toNat_lt
  have h5 := (byteAt pkt 5).toNat_lt
  have g4 := (s.buf 4).toNat_lt
  have g5 := (s.buf 5).toNat_lt
  have e4 : s.buf 4 = byteAt pkt 4 := UInt8.toNat_inj.1 (by omega)
  have e5 : s.buf 5 = byteAt pkt 5 := UInt8.toNat_inj.1 (by omega)
  simp [Defrag.isNew, htot, e4, e5]

theorem more_iff (hc : f.Carries id k pkt) : moreFragments pkt = true ↔ k + 1 < f.count := by
  rw [hc.more, decide_eq_true_iff]

theorem limit_cons (hc : f.Carries id k pkt) : limit f (k :: received) = if moreFragments pkt then limit f received else f.offset (k + 1) := by
  have hlt := hc.lt_count
  unfold limit
  by_cases hm : moreFragments pkt = true
  · have hne : f.count - 1 ≠ k := by
      have := (more_iff hc).1 hm
      omega
    simp only [hm, if_true, mem_cons, hne, false_or]
  · have he : f.count = k + 1 := by
      have := mt (more_iff hc).2 hm
      omega
    have hmem : f.count - 1 ∈ k :: received := by
      rw [he]
      exact mem_cons_self
    rw [if_pos hmem, if_neg hm, ← he, offset_count]

theorem eq_nil_iff (ho : OrderedHoles hs) : hs = [] ↔ ∀ x, ¬Covered hs x := by
  constructor
  · rintro rfl x ⟨g, hg, -⟩
    cases hg
  · intro hn
    cases hs with
    | nil => rfl
    | cons g hs =>
      have hm : g ∈ g :: hs := mem_cons_self
      exact absurd ⟨g, hm, le_rfl, ho.nonempty g hm⟩ (hn (8 * g.1))

theorem covered_descriptor (ho : OrderedHoles hs) {i : Nat} (hi : i ∈ indices hs) (hx : 8 * i ≤ x ∧ x < 8 * i + 8) :
    Covered hs x := by
  obtain ⟨g, hg, rfl⟩ := mem_map.1 hi
  have h1 := ho.nonempty g hg
  have h2 := ho.aligned g hg
  have h3 := of_decide_eq_true (ho.inBuff g hg)
  unfold holeAddr IP_PKTSIZE at h3
  exact ⟨g, hg, hx.1, by omega⟩

/-- A fragment that was received before stays where it is. -/
theorem Assembling.stored_of_copied (hA : Assembling f id s received hs) (hc : f.Carries id k pkt) (ho : OrderedHoles gs)
    (hcov : ∀ x, Covered gs x ↔ Missing f (k :: received) x)
    (hcopy : Copied s s' pkt (f.offset (k + 1)) (indices gs ++ indices hs)) :
    ∀ j ∈ k :: received, Stored s'.buf (IP_HDR_SIZE + f.offset j) (f.part j) := by
  intro j hj
  by_cases hjk : j = k
  · subst hjk
    rw [← fragData_eq hc, ← fragStart_eq hc]
    exact hcopy.data
  · have hjr : j ∈ received := (mem_cons.1 hj).resolve_left hjk
    have hjc := hA.range j hjr
    intro i b hb
    have hi : i < (f.part j).length := (List.getElem?_eq_some_iff.1 hb).1
    have hin : f.offset j ≤ f.offset j + i ∧ f.offset j + i < f.offset (j + 1) := by
      rw [offset_succ hjc]
      omega
    rw [hcopy.same _ (by omega) ?_ ?_]
    · exact hA.stored j hjr i b hb
    · rw [fragStart_eq hc]
      by_contra hn
      refine hjk (eq_of_mem_part hjc hc.lt_count hin ?_)
      omega
    · intro t ht
      unfold holeAddr
      by_contra hn
      have hx : 8 * t ≤ f.offset j + i ∧ f.offset j + i < 8 * t + 8 := by omega
      rcases mem_append.1 ht with ht | ht
      · exact ((hcov _).1 (covered_descriptor ho ht hx)).2 j hj hin
      · exact ((hA.covered _).1 (covered_descriptor hA.ordered ht hx)).2 j hjr hin

/-- What a call with a fragment of the payload comes to: the fragments received are in the buffer; the packet is returned if all of
them are, and else the assembly goes on. -/
structure Delivered (f : Fragments) (id : Nat) (s : Defrag) (received : List Nat) (out : Option Nat) : Prop where
  stored : ∀ j ∈ received, Stored s.buf (IP_HDR_SIZE + f.offset j) (f.part j)
  complete : f.Complete received → out = some (f.payload.length + IP_HDR_SIZE)
  incomplete : ¬f.Complete received → out = none ∧ ∃ hs, Assembling f id s received hs

theorem Assembling.add (hA : Assembling f id s received (pre ++ (h, l) :: post)) (hc : f.Carries id k pkt)
    (hf : FragFits pre h (truncated pkt l (f.offset (k + 1))) post (offset8 pkt) (f.offset (k + 1)))
    (hap : Apart (fixed pre h (truncated pkt l (f.offset (k + 1))) post (offset8 pkt) (f.offset (k + 1))))
    (hcov : ∀ x, Covered (fixed pre h (truncated pkt l (f.offset (k + 1))) post (offset8 pkt) (f.offset (k + 1))) x ↔
      Missing f (k :: received) x) :
    ∃ s' out, s.addFragment h pkt = some (s', out) ∧ Delivered f id s' (k :: received) out := by
  have hlen : 0 ≤ fragLen pkt := by
    rw [fragLen_eq hc]
    exact Int.natCast_nonneg _
  obtain ⟨s', hadd, hL, htot, hcopy⟩ := addFragment_linked hA.linked hA.ordered hf hlen (fin_eq hc) (fin_le hc)
  generalize hgs : fixed pre h (truncated pkt l (f.offset (k + 1))) post (offset8 pkt) (f.offset (k + 1)) = gs at *
  have ho : OrderedHoles gs := by
    rw [← hgs]
    exact hf.ordered hA.ordered (truncated_cases pkt l _)
  have hrange : ∀ j ∈ k :: received, j < f.count := forall_mem_cons.2 ⟨hc.lt_count, hA.range⟩
  have hnil : gs = [] ↔ f.Complete (k :: received) := by
    rw [eq_nil_iff ho, complete_iff hrange]
    exact forall_congr' fun x => not_congr (hcov x)
  have htot' : s'.totalLen = limit f (k :: received) := by
    rw [limit_cons hc, htot, hA.totalLen]
  have hstored := hA.stored_of_copied hc ho hcov hcopy
  have hlast : f.count - 1 < f.count := Nat.sub_lt (Nat.lt_of_lt_of_le Nat.zero_lt_two f.two) Nat.one_pos
  refine ⟨s', _, hadd, hstored, ?_, ?_⟩
  · intro hcomp
    rw [if_pos (hnil.2 hcomp), htot', limit, if_pos (hcomp _ hlast)]
  · intro hcomp
    have hne : gs ≠ [] := fun h => hcomp (hnil.1 h)
    refine ⟨if_neg hne, gs, hL hne, ho, hap, hcov, htot', ?_, hrange, hstored⟩
    rw [hcopy.header 4 (by decide) (by decide) (by decide), hcopy.header 5 (by decide) (by decide) (by decide)]
    exact hA.ipId

theorem Assembling.exists_hole (hA : Assembling f id s received hs) (hk : k < f.count) (hnew : k ∉ received) :
    ∃ pre h l post, hs = pre ++ (h, l) :: post ∧ 8 * h ≤ f.offset k ∧ f.offset (k + 1) ≤ l := by
  obtain ⟨g, hg, hlo, hhi⟩ := (hA.covered _).2 ((missing_offset_iff hk hA.range).2 hnew)
  obtain ⟨pre, post, rfl⟩ := append_of_mem hg
  refine ⟨pre, g.1, g.2, post, rfl, hlo, ?_⟩
  by_contra hlt
  -- the byte at the end of the hole would be missing too
  have hin : f.offset k ≤ g.2 ∧ g.2 < f.offset (k + 1) := ⟨hhi.le, not_le.1 hlt⟩
  have hmiss : Missing f received g.2 := by
    refine ⟨hin.2.trans_le ((offset_le_payload hk).trans (payload_le_limit f received)), ?_⟩
    intro j hj hj'
    obtain rfl := eq_of_mem_part (hA.range j hj) hk hj' hin
    exact hnew hj
  exact hA.apart.not_covered_end (hlo.trans hhi.le) ((hA.covered _).2 hmiss)

/-- The bytes between two holes of the list were received. -/
theorem Assembling.not_missing_between (hA : Assembling f id s received (pre ++ g :: (h, l) :: post))
    (hgx : g.2 ≤ x) (hxh : x < 8 * h) : ¬Missing f received x := by
  intro hm
  have hap : Apart ((pre ++ [g]) ++ (h, l) :: post) := by
    rw [append_assoc, singleton_append]
    exact hA.apart
  have hg : 8 * g.1 < g.2 := hA.ordered.nonempty g (mem_append_right _ mem_cons_self)
  have hl : 8 * h < l :=
    hA.ordered.nonempty (h, l) (mem_append_right _ (mem_cons_of_mem _ mem_cons_self))
  have hx := (hA.covered x).2 hm
  rw [covered_append, covered_cons, covered_cons] at hx
  rcases hx with hx | hx | hx | hx
  · have := hA.apart.covered_pre (h := g.1) (l := g.2) hx
    omega
  · omega
  · omega
  · have := hap.covered_post hx
    omega

/-- A hole with another one behind it ends where a fragment begins. -/
theorem Assembling.exists_offset_eq (hA : Assembling f id s received (pre ++ g :: (h, l) :: post))
    (hh : 8 * h ≤ f.payload.length) : ∃ j < f.count, f.offset j = g.2 := by
  have hgm : g ∈ pre ++ g :: (h, l) :: post := mem_append_right _ mem_cons_self
  have hgh : g.2 < 8 * h := (pairwise_cons.1 (pairwise_append.1 hA.apart).2.1).1 (h, l) mem_cons_self
  have hg : 8 * g.1 < g.2 := hA.ordered.nonempty g hgm
  obtain ⟨j, hj, hjlo, hjhi⟩ := exists_part (hgh.trans_le hh)
  refine ⟨j, hj, le_antisymm hjlo ?_⟩
  by_contra hlt
  -- fragment `j` would be missing, and with it the byte behind the hole
  have hmiss : Missing f received (g.2 - 1) := by
    refine (hA.covered _).1 ⟨g, hgm, ?_, ?_⟩
    · omega
    · omega
  refine hA.not_missing_between le_rfl hgh ⟨(hgh.trans_le hh).trans_le (payload_le_limit f received), ?_⟩
  intro r hr hin
  obtain rfl := eq_of_mem_part (hA.range r hr) hj hin ⟨hjlo, hjhi⟩
  exact hmiss.2 r hr (by omega)

/-- Where the fragment begins at the hole, there is no hole at index 0 right before it: this is what the condition says. -/
theorem Assembling.keep_eq (hA : Assembling f id s received (pre ++ (h, l) :: post)) (hk : k < f.count) (hstart : 8 * h = f.offset k)
    (hok : ¬∃ j, 1 ≤ j ∧ j < k ∧ (∀ i < j, i ∉ received) ∧ ∀ i, j ≤ i → i < k → i ∈ received) : keep pre = pre := by
  unfold keep
  split
  swap
  · rfl
  rename_i h0
  by_contra hne
  obtain ⟨pre', g, rfl⟩ : ∃ pre' g, pre = pre' ++ [g] :=
    ⟨_, _, (dropLast_concat_getLast (fun h => hne h.symm)).symm⟩
  have hg0 : g.1 = 0 := by
    rw [indices_append, indices_cons, indices_nil, getLastD_concat] at h0
    exact h0
  rw [append_assoc, singleton_append] at hA
  have hgm : g ∈ pre' ++ g :: (h, l) :: post := mem_append_right _ mem_cons_self
  have hg : 8 * g.1 < g.2 := hA.ordered.nonempty g hgm
  have hgh : g.2 < 8 * h := (pairwise_cons.1 (pairwise_append.1 hA.apart).2.1).1 (h, l) mem_cons_self
  obtain ⟨j, hj, hjeq⟩ := hA.exists_offset_eq (hstart.trans_le (offset_le_payload hk.le))
  have hjk : j < k := by
    by_contra hn
    have := offset_le (f := f) (not_lt.1 hn) hj.le
    omega
  -- the fragments before `j` are in the hole at index 0, and those from `j` on are between the two holes
  refine hok ⟨j, ?_, hjk, ?_, ?_⟩
  · refine Nat.pos_of_ne_zero ?_
    rintro rfl
    rw [offset_zero] at hjeq
    omega
  · intro i hi
    refine (missing_offset_iff (hi.trans hj) hA.range).1 ((hA.covered _).1 ⟨g, hgm, ?_, hjeq ▸ offset_lt hi hj.le⟩)
    rw [hg0]
    exact Nat.zero_le _
  · intro i hji hik
    by_contra hn
    refine hA.not_missing_between ?_ ?_ ((missing_offset_iff (hik.trans hk) hA.range).2 hn)
    · rw [← hjeq]
      exact offset_le hji (hik.trans hk).le
    · rw [hstart]
      exact offset_lt hik hk.le

theorem missing_cons : Missing f (k :: received) x ↔ x < limit f (k :: received) ∧
    ¬(f.offset k ≤ x ∧ x < f.offset (k + 1)) ∧ ∀ j ∈ received, ¬(f.offset j ≤ x ∧ x < f.offset (j + 1)) := by
  rw [Missing, forall_mem_cons]

/-- What is missing after a new fragment that is not the last one: the hole without the bytes of the fragment. -/
theorem Assembling.missing_more (hA : Assembling f id s received (pre ++ (h, l) :: post)) (hc : f.Carries id k pkt)
    (hm : moreFragments pkt = true) (hlo : 8 * h ≤ f.offset k) (hhi : f.offset (k + 1) ≤ l) (x : Nat) :
    (Covered pre x ∨ Covered post x) ∨ (8 * h ≤ x ∧ x < f.offset k) ∨ (f.offset (k + 1) ≤ x ∧ x < l) ↔
      Missing f (k :: received) x := by
  have hlt := offset_lt_succ hc.lt_count
  have hold := hA.covered x
  have hpre : Covered pre x → x < 8 * h := hA.apart.covered_pre
  have hpost : Covered post x → l < x := hA.apart.covered_post
  rw [covered_append, covered_cons] at hold
  rw [missing_cons, limit_cons hc, if_pos hm]
  constructor
  · intro hx
    have hin : (Covered pre x ∨ (8 * h ≤ x ∧ x < l) ∨ Covered post x) ∧ ¬(f.offset k ≤ x ∧ x < f.offset (k + 1)) := by
      rcases hx with (hx | hx) | hx | hx
      · have := hpre hx
        exact ⟨Or.inl hx, by omega⟩
      · have := hpost hx
        exact ⟨Or.inr (Or.inr hx), by omega⟩
      · exact ⟨Or.inr (Or.inl (by omega)), by omega⟩
      · exact ⟨Or.inr (Or.inl (by omega)), by omega⟩
    have hmiss := hold.1 hin.1
    exact ⟨hmiss.1, hin.2, hmiss.2⟩
  · rintro ⟨h1, h2, h3⟩
    rcases hold.2 ⟨h1, h3⟩ with hx | hx | hx
    · exact Or.inl (Or.inl hx)
    · exact Or.inr (by omega)
    · exact Or.inl (Or.inr hx)

/-- What is missing after the last fragment: no hole is behind it, and its hole has no end. -/
theorem Assembling.missing_last (hA : Assembling f id s received (pre ++ (h, l) :: post)) (hc : f.Carries id k pkt)
    (hm : moreFragments pkt ≠ true) (hnew : k ∉ received) (hlo : 8 * h ≤ f.offset k) (hhi : f.offset (k + 1) ≤ l) (x : Nat) :
    (Covered pre x ∨ Covered post x) ∨ (8 * h ≤ x ∧ x < f.offset k) ∨
        (f.offset (k + 1) ≤ x ∧ x < f.offset (k + 1)) ↔ Missing f (k :: received) x := by
  have hlt := offset_lt_succ hc.lt_count
  have hold := hA.covered x
  have hpre : Covered pre x → x < 8 * h := hA.apart.covered_pre
  rw [covered_append, covered_cons] at hold
  rw [missing_cons, limit_cons hc, if_neg hm]
  have hcount : f.count = k + 1 := by
    have := mt (more_iff hc).2 hm
    have := hc.lt_count
    omega
  have hlim : limit f received = 65535 := by
    rw [limit, if_neg]
    rw [hcount]
    exact hnew
  have hfin : f.offset (k + 1) = f.payload.length := by
    rw [← hcount, offset_count]
  have hlast : ¬Covered post x := by
    intro hx
    have hlx := hA.apart.covered_post hx
    have hmx := hold.1 (Or.inr (Or.inr hx))
    refine hA.apart.not_covered_end (by omega) ((hA.covered l).2 ⟨hlx.trans hmx.1, ?_⟩)
    intro j hj hin
    have := offset_le_payload (f := f) (k := j + 1) (hA.range j hj)
    omega
  constructor
  · intro hx
    have hin : (Covered pre x ∨ (8 * h ≤ x ∧ x < l) ∨ Covered post x) ∧ x < f.offset k := by
      rcases hx with (hx | hx) | hx | hx
      · have := hpre hx
        exact ⟨Or.inl hx, by omega⟩
      · exact absurd hx hlast
      · exact ⟨Or.inr (Or.inl (by omega)), hx.2⟩
      · omega
    refine ⟨by omega, by omega, (hold.1 hin.1).2⟩
  · rintro ⟨h1, h2, h3⟩
    have hxk : x < f.offset k := by omega
    have hle : f.payload.length ≤ 65535 := f.fits.trans (by decide)
    rcases hold.2 ⟨by omega, h3⟩ with hx | hx | hx
    · exact Or.inl (Or.inl hx)
    · exact Or.inr (Or.inl ⟨hx.1, hxk⟩)
    · exact absurd hx hlast

theorem Assembling.covered_new (hA : Assembling f id s received (pre ++ (h, l) :: post)) (hc : f.Carries id k pkt)
    (hnew : k ∉ received) (hlo : 8 * h ≤ f.offset k) (hhi : f.offset (k + 1) ≤ l)
    (hkeep : offset8 pkt ≤ h → keep pre = pre)
    (h8 : f.offset (k + 1) < truncated pkt l (f.offset (k + 1)) → f.offset (k + 1) % 8 = 0) (x : Nat) :
    Covered (fixed pre h (truncated pkt l (f.offset (k + 1))) post (offset8 pkt) (f.offset (k + 1))) x ↔
      Missing f (k :: received) x := by
  have ho := hc.offset8
  rw [covered_fixed (by omega) hkeep h8, ho]
  unfold truncated
  by_cases hm : moreFragments pkt = true
  · rw [if_pos hm]
    exact hA.missing_more hc hm hlo hhi x
  · rw [if_neg hm]
    exact hA.missing_last hc hm hnew hlo hhi x

theorem rest_of_more (hc : f.Carries id k pkt) (hm : moreFragments pkt = true) :
    f.offset (k + 1) % 8 = 0 ∧ inBuff (f.offset (k + 1) / 8) = true := by
  have hk := (more_iff hc).1 hm
  have h8 := offset_mod hk
  have hlt := (offset_lt_succ hk).trans_le (offset_le_payload hk)
  have hfits : f.payload.length ≤ 16464 := f.fits
  refine ⟨h8, decide_eq_true ?_⟩
  unfold holeAddr IP_HDR_SIZE IP_PKTSIZE
  omega

theorem netDefragment_new (hA : Assembling f id (t.begin pkt) received hs) (hc : f.Carries id k pkt) (hnew : k ∉ received)
    (hok : ¬∃ j, 1 ≤ j ∧ j < k ∧ (∀ i < j, i ∉ received) ∧ ∀ i, j ≤ i → i < k → i ∈ received) :
    ∃ s' out, t.netDefragment pkt = some (s', out) ∧ Delivered f id s' (k :: received) out := by
  obtain ⟨pre, h, l, post, rfl, hlo, hhi⟩ := hA.exists_hole hc.lt_count hnew
  have hlt := offset_lt_succ hc.lt_count
  have hstart := fragStart_eq hc
  have ho := hc.offset8
  have hpre : ∀ g ∈ pre, g.2 < f.offset k := fun g hg =>
    ((pairwise_append.1 hA.apart).2.2 g hg (h, l) mem_cons_self).trans_le hlo
  have hpost : ∀ g ∈ post, l < 8 * g.1 := fun g hg =>
    (pairwise_cons.1 (pairwise_append.1 hA.apart).2.1).1 g hg
  have hfind : findHole (t.begin pkt).buf (fragStart pkt) (2 ^ 16) (t.begin pkt).firstHole = some (some h) := by
    rw [hstart]
    exact hA.linked.findHole_eq hA.ordered hpre (by omega)
  have hov : noOverlap pkt h = false := by
    rw [noOverlap_eq hc, decide_eq_false_iff_not]
    omega
  have heq := netDefragment_eq (tooFar_eq hc) hfind
  simp only [hov, Bool.false_eq_true, if_false] at heq
  have hrest : f.offset (k + 1) < truncated pkt l (f.offset (k + 1)) → f.offset (k + 1) % 8 = 0 ∧ inBuff (f.offset (k + 1) / 8) = true := by
    intro hr
    unfold truncated at hr
    split at hr
    · exact rest_of_more hc ‹_›
    · exact absurd hr (lt_irrefl _)
  have hf : FragFits pre h (truncated pkt l (f.offset (k + 1))) post (offset8 pkt) (f.offset (k + 1)) := by
    refine ⟨by omega, ?_, by omega, fun g hg => hhi.trans (hpost g hg).le, hrest⟩
    rw [ho]
    exact hpre
  have hkeep : offset8 pkt ≤ h → keep pre = pre := fun hle => hA.keep_eq hc.lt_count (by omega) hok
  have hap : Apart (fixed pre h (truncated pkt l (f.offset (k + 1))) post (offset8 pkt) (f.offset (k + 1))) := by
    refine apart_fixed hA.apart hhi (by omega) ?_ (truncated_cases pkt l _) fun hr => (hrest hr).1
    rw [ho]
    exact hpre
  obtain ⟨s', out, hadd, hd⟩ := hA.add hc hf hap (hA.covered_new hc hnew hlo hhi hkeep fun hr => (hrest hr).1)
  exact ⟨s', out, heq.trans hadd, hd⟩

theorem missing_cons_of_mem (hk : k ∈ received) (x : Nat) : Missing f (k :: received) x ↔ Missing f received x := by
  have hmem : ∀ j, j ∈ k :: received ↔ j ∈ received := fun j =>
    ⟨fun h => (mem_cons.1 h).elim (fun he => he ▸ hk) (fun h => h), mem_cons_of_mem k⟩
  simp only [Missing, limit, hmem]

theorem complete_cons_of_mem (hk : k ∈ received) : f.Complete (k :: received) ↔ f.Complete received :=
  forall₂_congr fun _ _ => ⟨fun h => (mem_cons.1 h).elim (fun he => he ▸ hk) (fun h => h), mem_cons_of_mem k⟩

theorem Assembling.again (hA : Assembling f id s received hs) (hk : k ∈ received) : Assembling f id s (k :: received) hs := by
  have hsub : ∀ j ∈ k :: received, j ∈ received := fun j h => (mem_cons.1 h).elim (fun he => he ▸ hk) (fun h => h)
  refine ⟨hA.linked, hA.ordered, hA.apart, fun x => ?_, ?_, hA.ipId, fun j hj => hA.range j (hsub j hj), fun j hj => hA.stored j (hsub j hj)⟩
  · rw [missing_cons_of_mem hk]
    exact hA.covered x
  · have hmem : f.count - 1 ∈ k :: received ↔ f.count - 1 ∈ received := ⟨hsub _, mem_cons_of_mem k⟩
    rw [hA.totalLen]
    simp only [limit, hmem]

theorem Assembling.not_covered (hA : Assembling f id s received hs) (hk : k ∈ received) (h1 : f.offset k ≤ x)
    (h2 : x < f.offset (k + 1)) : ¬Covered hs x :=
  fun hx => ((hA.covered x).1 hx).2 k hk ⟨h1, h2⟩

/-- A fragment received before, right behind a hole: the hole is shortened to the length it has. -/
theorem Assembling.add_again (hA : Assembling f id s received (pre ++ (h, l) :: post)) (hc : f.Carries id k pkt)
    (hk : k ∈ received) (hend : f.offset k = l) (hpre : ∀ g ∈ pre, g.2 < f.offset k) :
    ∃ s' out, s.addFragment h pkt = some (s', out) ∧ Delivered f id s' (k :: received) out := by
  have hlt := offset_lt_succ hc.lt_count
  have ho := hc.offset8
  have hhl : 8 * h < l := hA.ordered.nonempty (h, l) (mem_append_right _ mem_cons_self)
  have hle : truncated pkt l (f.offset (k + 1)) ≤ f.offset (k + 1) := by
    unfold truncated
    split <;> omega
  have hpost : ∀ g ∈ post, f.offset (k + 1) ≤ 8 * g.1 := by
    intro g hg
    have hgm : g ∈ pre ++ (h, l) :: post := mem_append_right _ (mem_cons_of_mem _ hg)
    have hlg := (pairwise_cons.1 (pairwise_append.1 hA.apart).2.1).1 g hg
    by_contra hn
    exact hA.not_covered hk (hend.trans_le hlg.le) (not_le.1 hn) ⟨g, hgm, le_rfl, hA.ordered.nonempty g hgm⟩
  have hfix : fixed pre h (truncated pkt l (f.offset (k + 1))) post (offset8 pkt) (f.offset (k + 1)) = pre ++ (h, l) :: post := by
    rw [fixed, if_neg (by omega), if_pos hle, ho, hend]
  have hf : FragFits pre h (truncated pkt l (f.offset (k + 1))) post (offset8 pkt) (f.offset (k + 1)) := by
    refine ⟨by omega, ?_, by omega, hpost, fun hr => absurd hle (not_le.2 hr)⟩
    rw [ho]
    exact hpre
  refine hA.add hc hf ?_ ?_
  · rw [hfix]
    exact hA.apart
  · intro x
    rw [hfix, missing_cons_of_mem hk]
    exact hA.covered x

/-- A fragment that was received before. -/
theorem netDefragment_again (hA : Assembling f id (t.begin pkt) received hs) (hc : f.Carries id k pkt)
    (hk : k ∈ received) (hinc : ¬f.Complete received) :
    ∃ s' out, t.netDefragment pkt = some (s', out) ∧ Delivered f id s' (k :: received) out := by
  have hinc' : ¬f.Complete (k :: received) := fun h => hinc ((complete_cons_of_mem hk).1 h)
  -- where the call changes nothing
  have hsame : Delivered f id (t.begin pkt) (k :: received) none :=
    ⟨(hA.again hk).stored, fun h => absurd h hinc', fun _ => ⟨rfl, hs, hA.again hk⟩⟩
  have hlt := offset_lt_succ hc.lt_count
  have hstart := fragStart_eq hc
  have hne : hs ≠ [] := by
    intro hnil
    refine hinc ((complete_iff hA.range).2 ?_)
    intro x hm
    exact (eq_nil_iff hA.ordered).1 hnil x ((hA.covered x).2 hm)
  rcases exists_split_at hs (fragStart pkt) with hall | ⟨pre, h, l, post, rfl, hpre, hl⟩
  · exact ⟨_, _, netDefragment_eq (tooFar_eq hc) (hA.linked.findHole_eq_none hA.ordered hne hall), hsame⟩
  · have heq := netDefragment_eq (tooFar_eq hc) (hA.linked.findHole_eq hA.ordered hpre hl)
    rw [hstart] at hpre hl
    have hm : (h, l) ∈ pre ++ (h, l) :: post := mem_append_right _ mem_cons_self
    have hhl : 8 * h < l := hA.ordered.nonempty (h, l) hm
    rcases Nat.lt_or_eq_of_le hl with hgt | hend
    · -- the hole begins behind the fragment
      have hge : f.offset (k + 1) ≤ 8 * h := by
        by_contra hn
        rcases Nat.lt_or_ge (8 * h) (f.offset k) with h1 | h1
        · exact hA.not_covered hk le_rfl hlt ⟨(h, l), hm, h1.le, hgt⟩
        · exact hA.not_covered hk h1 (not_le.1 hn) ⟨(h, l), hm, le_rfl, hhl⟩
      have hov : noOverlap pkt h = true := by
        rw [noOverlap_eq hc]
        exact decide_eq_true hge
      simp only [hov, if_true] at heq
      exact ⟨_, _, heq, hsame⟩
    · have hov : noOverlap pkt h = false := by
        rw [noOverlap_eq hc, decide_eq_false_iff_not]
        omega
      simp only [hov, Bool.false_eq_true, if_false] at heq
      obtain ⟨s', out, hadd, hd⟩ := hA.add_again hc hk hend hpre
      exact ⟨s', out, heq.trans hadd, hd⟩

end AssemblyAux

end UBoot

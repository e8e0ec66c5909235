import UBoot.Lemmas.DefragAux

/-!
# A fragment and the hole list

The list of holes as pairs of an index and an end, in the order of the links. `fixed` is the list after a fragment was taken out of
one of the holes, and the code that takes it out makes the links those of this list.
-/

namespace UBoot

open Lib List

namespace DefragAux
variable {gs pre' : List (Nat × Nat)} {is touched : List Nat} {i newh : Nat}


/-- The indices of the holes. -/
def indices (hs : List (Nat × Nat)) : List Nat := hs.map Prod.fst

@[simp] theorem indices_nil : indices [] = [] := rfl

@[simp] theorem indices_cons (h : Nat × Nat) (hs : List (Nat × Nat)) : indices (h :: hs) = h.1 :: indices hs := rfl

@[simp] theorem indices_append (hs gs : List (Nat × Nat)) : indices (hs ++ gs) = indices hs ++ indices gs := map_append

theorem indices_middle (pre post : List (Nat × Nat)) (h l : Nat) : indices (pre ++ (h, l) :: post) = indices pre ++ h :: indices post := by
  rw [indices_append, indices_cons]

theorem mem_indices {h : Nat × Nat} (hh : h ∈ hs) : h.1 ∈ indices hs := mem_map_of_mem hh

/-- The descriptors in the buffer are those of a list of holes, linked in this order. -/
structure Linked (s : Defrag) (hs : List (Nat × Nat)) : Prop where
  first : s.firstHole = (indices hs).headD 0
  links : Seg (fun i => (holeAt s.buf i).nextHole) (fun i => (holeAt s.buf i).prevHole) 0 (indices hs) 0
  last : ∀ h ∈ hs, (holeAt s.buf h.1).lastByte = h.2

/-- The holes are in order, none is empty, and each has room for its descriptor. -/
structure OrderedHoles (hs : List (Nat × Nat)) : Prop where
  pairwise : hs.Pairwise fun g h => g.2 ≤ 8 * h.1
  nonempty : ∀ h ∈ hs, 8 * h.1 < h.2
  inBuff : ∀ h ∈ hs, inBuff h.1 = true
  aligned : ∀ h ∈ hs, h.2 % 8 = 0 ∨ h.2 = 65535

/-- The holes before the one that is changed. A hole at index 0 is lost, since a link back to it says that there is none. -/
def keep (pre : List (Nat × Nat)) : List (Nat × Nat) := if (indices pre).getLastD 0 = 0 then [] else pre

/-- The holes after the fragment of the bytes from block `o` up to `fin` was taken out of the hole `h`, which ends at `l`. -/
def fixed (pre : List (Nat × Nat)) (h l : Nat) (post : List (Nat × Nat)) (o fin : Nat) : List (Nat × Nat) :=
  if o ≤ h ∧ l ≤ fin then keep pre ++ post
  else if l ≤ fin then pre ++ (h, 8 * o) :: post
  else if o ≤ h then keep pre ++ (fin / 8, l) :: post
  else pre ++ (h, 8 * o) :: (fin / 8, l) :: post

variable {s : Defrag} {pre post hs : List (Nat × Nat)} {h l l₀ o fin : Nat}

theorem keep_sublist (pre : List (Nat × Nat)) : (keep pre).Sublist pre := by
  unfold keep
  split
  · exact nil_sublist pre
  · exact List.Sublist.refl pre

theorem getLastD_keep (pre : List (Nat × Nat)) : (indices (keep pre)).getLastD 0 = (indices pre).getLastD 0 := by
  unfold keep
  split
  · rename_i h0
    exact h0.symm
  · rfl

/-! ## Order -/

theorem OrderedHoles.sublist (h : OrderedHoles hs) (hg : gs.Sublist hs) : OrderedHoles gs :=
  ⟨h.pairwise.sublist hg, fun g hg' => h.nonempty g (hg.subset hg'), fun g hg' => h.inBuff g (hg.subset hg'),
    fun g hg' => h.aligned g (hg.subset hg')⟩

theorem OrderedHoles.nodup (h : OrderedHoles hs) : (indices hs).Nodup := by
  have hlt : (indices hs).Pairwise (· < ·) := by
    refine pairwise_map.2 (h.pairwise.imp_of_mem fun {a b} ha _ hab => ?_)
    have := h.nonempty a ha
    omega
  exact hlt.imp fun hab => Nat.ne_of_lt hab

theorem orderedHoles_append : OrderedHoles (gs ++ hs) ↔ OrderedHoles gs ∧ OrderedHoles hs ∧ ∀ g ∈ gs, ∀ h ∈ hs, g.2 ≤ 8 * h.1 := by
  constructor
  · intro h
    exact ⟨h.sublist (sublist_append_left _ _), h.sublist (sublist_append_right _ _), (pairwise_append.1 h.pairwise).2.2⟩
  · rintro ⟨hg, hh, hgh⟩
    refine ⟨pairwise_append.2 ⟨hg.pairwise, hh.pairwise, hgh⟩, ?_, ?_, ?_⟩
    · intro x hx
      exact (mem_append.1 hx).elim (hg.nonempty x) (hh.nonempty x)
    · intro x hx
      exact (mem_append.1 hx).elim (hg.inBuff x) (hh.inBuff x)
    · intro x hx
      exact (mem_append.1 hx).elim (hg.aligned x) (hh.aligned x)

theorem orderedHoles_cons {g : Nat × Nat} : OrderedHoles (g :: hs) ↔ (8 * g.1 < g.2 ∧ inBuff g.1 = true ∧ (g.2 % 8 = 0 ∨ g.2 = 65535)) ∧
      (∀ h ∈ hs, g.2 ≤ 8 * h.1) ∧ OrderedHoles hs := by
  constructor
  · intro h
    have hm : g ∈ g :: hs := mem_cons_self
    exact ⟨⟨h.nonempty g hm, h.inBuff g hm, h.aligned g hm⟩, (pairwise_cons.1 h.pairwise).1, h.sublist (sublist_cons_self g hs)⟩
  · rintro ⟨⟨h1, h2, h3⟩, hg, hh⟩
    exact ⟨pairwise_cons.2 ⟨hg, hh.pairwise⟩, forall_mem_cons.2 ⟨h1, hh.nonempty⟩,
      forall_mem_cons.2 ⟨h2, hh.inBuff⟩, forall_mem_cons.2 ⟨h3, hh.aligned⟩⟩

/-- A fragment that the code can take out of the hole `h`: it begins behind the holes before, ends behind the beginning of this hole
and does not reach into a later one; and if a part of the hole is left behind it, that part has a place for a descriptor. -/
structure FragFits (pre : List (Nat × Nat)) (h l : Nat) (post : List (Nat × Nat)) (o fin : Nat) : Prop where
  start_le : 8 * o ≤ fin
  before : ∀ g ∈ pre, g.2 < 8 * o
  overlap : 8 * h < fin
  after : ∀ g ∈ post, fin ≤ 8 * g.1
  rest : fin < l → fin % 8 = 0 ∧ inBuff (fin / 8) = true

/-- The list stays in order. The hole may have been truncated, to the end of the fragment, before. -/
theorem FragFits.ordered (hf : FragFits pre h l post o fin) (ho : OrderedHoles (pre ++ (h, l₀) :: post))
    (hl : l = l₀ ∨ l ≤ fin) : OrderedHoles (fixed pre h l post o fin) := by
  rw [orderedHoles_append, orderedHoles_cons] at ho
  obtain ⟨hpre, ⟨⟨hne, hin, hal⟩, hhp, hpost⟩, hph⟩ := ho
  have hpp : ∀ g ∈ pre, ∀ q ∈ post, g.2 ≤ 8 * q.1 := fun g hg q hq => hph g hg q (mem_cons_of_mem _ hq)
  have hk := keep_sublist pre
  have hkeep := hpre.sublist hk
  have hrest : fin < l → (8 * (fin / 8) < l ∧ inBuff (fin / 8) = true ∧ (l % 8 = 0 ∨ l = 65535)) := by
    intro hlt
    obtain ⟨h8, hb⟩ := hf.rest hlt
    obtain rfl := hl.resolve_right (not_le.2 hlt)
    exact ⟨by omega, hb, hal⟩
  have hlp : fin < l → ∀ g ∈ post, l ≤ 8 * g.1 := by
    intro hlt
    obtain rfl := hl.resolve_right (not_le.2 hlt)
    exact hhp
  have hshort : ¬o ≤ h → (8 * h < 8 * o ∧ inBuff h = true ∧ (8 * o % 8 = 0 ∨ 8 * o = 65535)) := by
    intro hlt
    exact ⟨by omega, hin, Or.inl (by omega)⟩
  have hpreh : ∀ g ∈ pre, g.2 ≤ 8 * h := fun g hg => hph g hg (h, l₀) mem_cons_self
  have hprefin : ∀ g ∈ pre, g.2 ≤ 8 * (fin / 8) := by
    intro g hg
    have := hf.before g hg
    have := hf.start_le
    omega
  have hopost : ∀ g ∈ post, 8 * o ≤ 8 * g.1 := fun g hg => hf.start_le.trans (hf.after g hg)
  unfold fixed
  split_ifs with h1 h2 h3
  · exact orderedHoles_append.2 ⟨hkeep, hpost, fun g hg => hpp g (hk.subset hg)⟩
  · have ho : ¬o ≤ h := fun ho => h1 ⟨ho, h2⟩
    refine orderedHoles_append.2 ⟨hpre, orderedHoles_cons.2 ⟨hshort ho, hopost, hpost⟩, ?_⟩
    intro g hg
    exact forall_mem_cons.2 ⟨hpreh g hg, hpp g hg⟩
  · have hlt : fin < l := not_le.1 h2
    refine orderedHoles_append.2 ⟨hkeep, orderedHoles_cons.2 ⟨hrest hlt, hlp hlt, hpost⟩, ?_⟩
    intro g hg
    exact forall_mem_cons.2 ⟨hprefin g (hk.subset hg), hpp g (hk.subset hg)⟩
  · have hlt : fin < l := not_le.1 h2
    refine orderedHoles_append.2 ⟨hpre, orderedHoles_cons.2 ⟨hshort h3, ?_, orderedHoles_cons.2 ⟨hrest hlt, hlp hlt, hpost⟩⟩, ?_⟩
    · have h8 := (hf.rest hlt).1
      have hs := hf.start_le
      exact forall_mem_cons.2 ⟨by show 8 * o ≤ 8 * (fin / 8); omega, hopost⟩
    · intro g hg
      exact forall_mem_cons.2 ⟨hpreh g hg, forall_mem_cons.2 ⟨hprefin g hg, hpp g hg⟩⟩

/-! ## Links -/

theorem getLastD_mem (hne : is.getLastD 0 ≠ 0) : is.getLastD 0 ∈ is := by
  cases is with
  | nil => exact absurd rfl hne
  | cons i is =>
    rw [getLastD_cons]
    exact getLastD_mem_cons

theorem headD_mem (hne : is.headD 0 ≠ 0) : is.headD 0 ∈ is := by
  cases is with
  | nil => exact absurd rfl hne
  | cons i is => exact mem_cons_self

theorem keep_eq_nil_iff (pre : List (Nat × Nat)) : keep pre = [] ↔ (indices pre).getLastD 0 = 0 := by
  unfold keep
  split
  · rename_i h0
    exact ⟨fun _ => h0, fun _ => rfl⟩
  · rename_i h0
    refine ⟨?_, fun h => absurd h h0⟩
    rintro rfl
    rfl

/-- What is known about the links at the hole `h` in the middle of a list of holes. -/
structure AtHole (s : Defrag) (pre : List (Nat × Nat)) (h : Nat) (post : List (Nat × Nat)) : Prop where
  prev : (holeAt s.buf h).prevHole = (indices pre).getLastD 0
  next : (holeAt s.buf h).nextHole = (indices post).headD 0
  nodup : (indices pre ++ h :: indices post).Nodup
  inBuff : ∀ i ∈ indices pre ++ h :: indices post, inBuff i = true
  post_ne_zero : ∀ i ∈ indices post, i ≠ 0
  links : Seg (fun i => (holeAt s.buf i).nextHole) (fun i => (holeAt s.buf i).prevHole) 0 (indices pre ++ [h] ++ indices post) 0
  links_keep : Seg (fun i => (holeAt s.buf i).nextHole) (fun i => (holeAt s.buf i).prevHole) 0 (indices (keep pre) ++ [h] ++ indices post) 0

theorem Linked.atHole (hL : Linked s (pre ++ (h, l) :: post)) (ho : OrderedHoles (pre ++ (h, l₀) :: post)) :
    AtHole s pre h post := by
  have hlinks := hL.links
  have hnd := ho.nodup
  rw [indices_middle] at hlinks hnd
  have happ := hlinks
  rw [seg_append, seg_cons] at happ
  obtain ⟨-, hpv, hnx, hpost⟩ := happ
  have hassoc : ∀ is, is ++ [h] ++ indices post = is ++ h :: indices post := fun is => by
    rw [append_assoc, singleton_append]
  refine ⟨hpv, hnx, hnd, ?_, ?_, by rw [hassoc]; exact hlinks, ?_⟩
  · intro i hi
    rw [← indices_middle pre post h l₀] at hi
    obtain ⟨g, hg, rfl⟩ := mem_map.1 hi
    exact ho.inBuff g hg
  · intro i hi
    obtain ⟨g, hg, rfl⟩ := mem_map.1 hi
    obtain ⟨-, ho', -⟩ := orderedHoles_append.1 ho
    obtain ⟨⟨hne, -⟩, hlt, -⟩ := orderedHoles_cons.1 ho'
    have hlt := hlt g hg
    simp only at hne hlt
    omega
  · rw [hassoc]
    unfold keep
    split
    · rename_i h0
      rw [h0] at hpv
      exact ⟨hpv, hnx, hpost⟩
    · exact hlinks

theorem AtHole.prev_mem (ha : AtHole s pre h post) (hp : (holeAt s.buf h).prevHole ≠ 0) : (holeAt s.buf h).prevHole ∈ indices pre := by
  rw [ha.prev] at hp ⊢
  exact getLastD_mem hp

theorem AtHole.next_mem (ha : AtHole s pre h post) (hn : (holeAt s.buf h).nextHole ≠ 0) : (holeAt s.buf h).nextHole ∈ indices post := by
  rw [ha.next] at hn ⊢
  exact headD_mem hn

theorem AtHole.next_eq_zero_iff (ha : AtHole s pre h post) : (holeAt s.buf h).nextHole = 0 ↔ post = [] := by
  rw [ha.next]
  cases post with
  | nil => exact ⟨fun _ => rfl, fun _ => rfl⟩
  | cons g post => exact ⟨fun h0 => absurd h0 (ha.post_ne_zero g.1 mem_cons_self), nofun⟩

theorem AtHole.not_mem (ha : AtHole s pre h post) : (∀ i ∈ indices pre, i ≠ h ∧ i ∉ indices post) ∧ h ∉ indices post := by
  obtain ⟨-, hcons, hdisj⟩ := nodup_append.1 ha.nodup
  refine ⟨fun i hi => ⟨hdisj i hi h mem_cons_self, ?_⟩, (nodup_cons.1 hcons).1⟩
  intro hp
  exact hdisj i hi i (mem_cons_of_mem _ hp) rfl

theorem AtHole.prev_ne_zero (ha : AtHole s pre h post) (hi : i ∈ indices (keep pre)) : (holeAt s.buf h).prevHole ≠ 0 := by
  intro hp
  rw [(keep_eq_nil_iff pre).2 (ha.prev ▸ hp)] at hi
  cases hi

theorem AtHole.next_ne_zero (ha : AtHole s pre h post) (hi : i ∈ indices post) : (holeAt s.buf h).nextHole ≠ 0 := by
  intro hn
  rw [ha.next_eq_zero_iff.1 hn] at hi
  cases hi

theorem AtHole.not_next (ha : AtHole s pre h post) (hi : i ∈ indices pre) :
    ¬((holeAt s.buf h).nextHole ≠ 0 ∧ i = (holeAt s.buf h).nextHole) := by
  rintro ⟨hn, rfl⟩
  exact (ha.not_mem.1 _ hi).2 (ha.next_mem hn)

theorem AtHole.not_prev (ha : AtHole s pre h post) (hi : i ∈ indices post) :
    ¬((holeAt s.buf h).prevHole ≠ 0 ∧ i = (holeAt s.buf h).prevHole) := by
  rintro ⟨hp, rfl⟩
  exact (ha.not_mem.1 _ (ha.prev_mem hp)).2 hi

theorem AtHole.prev_in (ha : AtHole s pre h post)
    (ht : ∀ i ∈ indices pre ++ h :: indices post, i ∈ touched) (hp : (holeAt s.buf h).prevHole ≠ 0) :
    UBoot.inBuff (holeAt s.buf h).prevHole = true ∧ (holeAt s.buf h).prevHole ∈ touched := by
  have hm := mem_append_left (h :: indices post) (ha.prev_mem hp)
  exact ⟨ha.inBuff _ hm, ht _ hm⟩

theorem AtHole.next_in (ha : AtHole s pre h post)
    (ht : ∀ i ∈ indices pre ++ h :: indices post, i ∈ touched) (hn : (holeAt s.buf h).nextHole ≠ 0) :
    UBoot.inBuff (holeAt s.buf h).nextHole = true ∧ (holeAt s.buf h).nextHole ∈ touched := by
  have hm := mem_append_right (indices pre) (mem_cons_of_mem h (ha.next_mem hn))
  exact ⟨ha.inBuff _ hm, ht _ hm⟩

theorem mem_of_mem_keep (hi : i ∈ indices (keep pre)) : i ∈ indices pre :=
  ((keep_sublist pre).map Prod.fst).subset hi

/-- The links around the hole `h` after it was replaced by the holes at `mid`, with the holes `pre'` before them. -/
theorem AtHole.splice (ha : AtHole s pre h post) (mid : List Nat) {nx pv : Nat → Nat}
    (hsub : pre'.Sublist pre) (hlast : (indices pre').getLastD 0 = (holeAt s.buf h).prevHole)
    (hlinks : Seg (fun i => (holeAt s.buf i).nextHole) (fun i => (holeAt s.buf i).prevHole) 0 (indices pre' ++ [h] ++ indices post) 0)
    (hpre : ∀ i ∈ indices pre', pv i = (holeAt s.buf i).prevHole ∧
      nx i = if i = (holeAt s.buf h).prevHole then (mid ++ indices post).headD 0 else (holeAt s.buf i).nextHole)
    (hmid : Seg nx pv (holeAt s.buf h).prevHole mid (holeAt s.buf h).nextHole)
    (hpost : ∀ i ∈ indices post, nx i = (holeAt s.buf i).nextHole ∧
      pv i = if i = (holeAt s.buf h).nextHole then mid.getLastD (holeAt s.buf h).prevHole
        else (holeAt s.buf i).prevHole) :
    Seg nx pv 0 (indices pre' ++ (mid ++ indices post)) 0 := by
  have hnd : (indices pre' ++ [h] ++ indices post).Nodup := by
    rw [append_assoc, singleton_append]
    exact ha.nodup.sublist ((hsub.map Prod.fst).append (List.Sublist.refl _))
  rw [← hlast] at hpre hmid hpost
  rw [ha.next] at hmid hpost
  exact hlinks.splice hnd hpre hmid hpost

/-- The ends of the holes after the hole `h` was replaced by the holes `mid`, where the other descriptors keep theirs. -/
theorem Linked.last_replaced (hL : Linked s (pre ++ (h, l) :: post)) (hsub : pre'.Sublist pre)
    (mid : List (Nat × Nat)) {buf : Nat → UInt8} (hmid : ∀ g ∈ mid, (holeAt buf g.1).lastByte = g.2)
    (hpre : ∀ i ∈ indices pre, (holeAt buf i).lastByte = (holeAt s.buf i).lastByte)
    (hpost : ∀ i ∈ indices post, (holeAt buf i).lastByte = (holeAt s.buf i).lastByte) :
    ∀ g ∈ pre' ++ (mid ++ post), (holeAt buf g.1).lastByte = g.2 := by
  intro g hg
  rcases mem_append.1 hg with hg | hg
  · have hm := hsub.subset hg
    exact (hpre g.1 (mem_indices hm)).trans (hL.last g (mem_append_left _ hm))
  · rcases mem_append.1 hg with hg | hg
    · exact hmid g hg
    · exact (hpost g.1 (mem_indices hg)).trans (hL.last g (mem_append_right _ (mem_cons_of_mem _ hg)))

theorem headD_keep_append (hp : (indices pre).getLastD 0 ≠ 0) (is js : List Nat) :
    (indices (keep pre) ++ is).headD 0 = (indices pre ++ js).headD 0 := by
  unfold keep
  rw [if_neg hp]
  cases pre with
  | nil => exact absurd rfl hp
  | cons g pre => rfl

theorem Linked.first_keep (hL : Linked s (pre ++ (h, l) :: post)) (ha : AtHole s pre h post) (is : List Nat) :
    (if (holeAt s.buf h).prevHole = 0 then is.headD 0 else s.firstHole) = (indices (keep pre) ++ is).headD 0 := by
  by_cases hp : (holeAt s.buf h).prevHole = 0
  · rw [if_pos hp, (keep_eq_nil_iff pre).2 (ha.prev ▸ hp)]
    rfl
  · rw [if_neg hp, headD_keep_append (ha.prev ▸ hp) _ (h :: indices post), hL.first, indices_middle]

theorem removeHole_linked (hL : Linked s (pre ++ (h, l) :: post)) (ho : OrderedHoles (pre ++ (h, l₀) :: post)) (hone : keep pre ++ post ≠ []) :
    ∃ s', s.removeHole (holeAt s.buf h) = some (s', false) ∧ Linked s' (keep pre ++ post) ∧
      SameOff (indices (pre ++ (h, l) :: post)) s.buf s'.buf ∧ s'.totalLen = s.totalLen := by
  have ha := hL.atHole ho
  have hone' : ¬((holeAt s.buf h).prevHole = 0 ∧ (holeAt s.buf h).nextHole = 0) := by
    rintro ⟨hp, hn⟩
    rw [ha.prev] at hp
    rw [ha.next_eq_zero_iff] at hn
    rw [(keep_eq_nil_iff pre).2 hp, hn] at hone
    exact hone rfl
  have ht : ∀ i ∈ indices pre ++ h :: indices post, i ∈ indices (pre ++ (h, l) :: post) := fun i hi =>
    indices_middle pre post h l ▸ hi
  obtain ⟨buf', hrem, hr⟩ := removeHole_spec (s := s) hone' (ha.prev_in ht) (ha.next_in ht)
  refine ⟨_, hrem, ⟨?_, ?_, ?_⟩, hr.same, rfl⟩
  · rw [indices_append, ← hL.first_keep ha, ha.next]
  · rw [indices_append]
    refine hr.seg (ha.splice [] (keep_sublist pre) ((getLastD_keep pre).trans ha.prev.symm) ha.links_keep ?_ seg_nil ?_)
    · intro i hi
      refine ⟨if_neg (ha.not_next (mem_of_mem_keep hi)), ?_⟩
      simp only [ne_eq, ha.prev_ne_zero hi, not_false_eq_true, true_and, nil_append, ha.next]
    · intro i hi
      refine ⟨if_neg (ha.not_prev hi), ?_⟩
      simp only [ne_eq, ha.next_ne_zero hi, not_false_eq_true, true_and, getLastD_nil]
  · exact hL.last_replaced (keep_sublist pre) [] nofun (fun i _ => hr.last i) fun i _ => hr.last i

theorem moveHole_linked (hL : Linked s (pre ++ (h, l) :: post)) (ho : OrderedHoles (pre ++ (h, l₀) :: post))
    (hnew : inBuff newh = true) (h0 : newh ≠ 0) (hpn : newh ∉ indices pre) (hqn : newh ∉ indices post) :
    ∃ s', s.moveHole h newh = some s' ∧ Linked s' (keep pre ++ (newh, l) :: post) ∧
      SameOff (newh :: indices (pre ++ (h, l) :: post)) s.buf s'.buf ∧ s'.totalLen = s.totalLen := by
  have ha := hL.atHole ho
  have ht : ∀ i ∈ indices pre ++ h :: indices post, i ∈ newh :: indices (pre ++ (h, l) :: post) := fun i hi =>
    mem_cons_of_mem _ (indices_middle pre post h l ▸ hi)
  have hnne : (holeAt s.buf h).nextHole ≠ newh := by
    rintro rfl
    exact hqn (ha.next_mem h0)
  have hpne : ¬((holeAt s.buf h).prevHole ≠ 0 ∧ newh = (holeAt s.buf h).prevHole) := by
    rintro ⟨hp, rfl⟩
    exact hpn (ha.prev_mem hp)
  have hlast : (holeAt s.buf h).lastByte = l := hL.last (h, l) (mem_append_right _ mem_cons_self)
  obtain ⟨buf', hmove, hr⟩ := moveHole_spec (s := s) rfl hnew mem_cons_self (ha.prev_in ht) (ha.next_in ht) hnne
  refine ⟨_, hmove, ⟨?_, ?_, ?_⟩, hr.same, rfl⟩
  · rw [indices_middle, ← hL.first_keep ha]
    rfl
  · rw [indices_middle, ← singleton_append]
    refine hr.seg (ha.splice [newh] (keep_sublist pre) ((getLastD_keep pre).trans ha.prev.symm) ha.links_keep ?_ ⟨?_, ?_, seg_nil⟩ ?_)
    · intro i hi
      have hne : i ≠ newh := fun he => hpn (he ▸ mem_of_mem_keep hi)
      refine ⟨(if_neg (ha.not_next (mem_of_mem_keep hi))).trans (if_neg hne), ?_⟩
      simp only [ne_eq, ha.prev_ne_zero hi, not_false_eq_true, true_and, if_neg hne, singleton_append, headD_cons]
    · exact (if_neg (fun hn => hnne hn.2.symm)).trans (if_pos rfl)
    · exact (if_neg hpne).trans (if_pos rfl)
    · intro i hi
      have hne : i ≠ newh := fun he => hqn (he ▸ hi)
      refine ⟨(if_neg (ha.not_prev hi)).trans (if_neg hne), ?_⟩
      simp only [ne_eq, ha.next_ne_zero hi, not_false_eq_true, true_and, if_neg hne, getLastD_cons, getLastD_nil]
  · refine hL.last_replaced (keep_sublist pre) [(newh, l)] ?_ ?_ ?_
    · exact forall_mem_singleton.2 ((hr.last newh).trans ((if_pos rfl).trans hlast))
    · intro i hi
      have hne : i ≠ newh := fun he => hpn (he ▸ hi)
      exact (hr.last i).trans (if_neg hne)
    · intro i hi
      have hne : i ≠ newh := fun he => hqn (he ▸ hi)
      exact (hr.last i).trans (if_neg hne)

theorem splitHole_linked (start : Nat) (hL : Linked s (pre ++ (h, l) :: post))
    (ho : OrderedHoles (pre ++ (h, l₀) :: post)) (hnew : inBuff newh = true) (h0 : newh ≠ 0) (hpn : newh ∉ indices pre)
    (hhn : h ≠ newh) (hqn : newh ∉ indices post) (hstart : start < 65536) :
    ∃ s', s.splitHole h newh start = some s' ∧ Linked s' (pre ++ (h, start) :: (newh, l) :: post) ∧
      SameOff (newh :: indices (pre ++ (h, l) :: post)) s.buf s'.buf ∧ s'.totalLen = s.totalLen := by
  have ha := hL.atHole ho
  have ht : ∀ i ∈ indices pre ++ h :: indices post, i ∈ newh :: indices (pre ++ (h, l) :: post) := fun i hi =>
    mem_cons_of_mem _ (indices_middle pre post h l ▸ hi)
  have hh : h ∈ indices pre ++ h :: indices post := mem_append_right _ mem_cons_self
  have hnne : (holeAt s.buf h).nextHole ≠ newh := by
    rintro rfl
    exact hqn (ha.next_mem h0)
  have hnh : ¬((holeAt s.buf h).nextHole ≠ 0 ∧ h = (holeAt s.buf h).nextHole) := by
    rintro ⟨hn, he⟩
    exact ha.not_mem.2 (he ▸ ha.next_mem hn)
  have hlast : (holeAt s.buf h).lastByte = l := hL.last (h, l) (mem_append_right _ mem_cons_self)
  obtain ⟨buf', hsplit, hr⟩ := splitHole_spec (s := s) rfl (ha.inBuff h hh) (ht h hh) hnew mem_cons_self hhn hstart (ha.next_in ht)
  refine ⟨_, hsplit, ⟨?_, ?_, ?_⟩, hr.same, rfl⟩
  · have hfirst := hL.first
    rw [indices_middle, headD_append] at hfirst
    rw [indices_middle, headD_append]
    exact hfirst
  · rw [indices_middle, indices_cons]
    refine hr.seg (ha.splice [h, newh] (List.Sublist.refl pre) ha.prev.symm ha.links ?_ ⟨?_, if_pos rfl, ?_, ?_, seg_nil⟩ ?_)
    · intro i hi
      have hne : i ≠ newh := fun he => hpn (he ▸ hi)
      have hih := (ha.not_mem.1 i hi).1
      refine ⟨(if_neg (ha.not_next hi)).trans (if_neg hne), ?_⟩
      simp only [if_neg hih, if_neg hne]
      split
      · rename_i he
        have hlinks := ha.links
        rw [append_assoc, seg_append] at hlinks
        rw [he, ha.prev]
        exact hlinks.1.next_last (ne_nil_of_mem hi)
      · rfl
    · exact (if_neg hnh).trans (if_neg hhn)
    · exact (if_neg (fun hn => hnne hn.2.symm)).trans (if_pos rfl)
    · exact (if_neg hhn.symm).trans (if_pos rfl)
    · intro i hi
      have hne : i ≠ newh := fun he => hqn (he ▸ hi)
      have hih : i ≠ h := fun he => ha.not_mem.2 (he ▸ hi)
      refine ⟨(if_neg hih).trans (if_neg hne), ?_⟩
      simp only [ne_eq, ha.next_ne_zero hi, not_false_eq_true, true_and, if_neg hne, getLastD_cons, getLastD_nil]
  · refine hL.last_replaced (List.Sublist.refl pre) [(h, start), (newh, l)] ?_ ?_ ?_
    · refine forall_mem_cons.2 ⟨(hr.last h).trans (if_pos rfl), forall_mem_singleton.2 ?_⟩
      exact (hr.last newh).trans ((if_neg hhn.symm).trans ((if_pos rfl).trans hlast))
    · intro i hi
      have hne : i ≠ newh := fun he => hpn (he ▸ hi)
      rw [hr.last, if_neg (ha.not_mem.1 i hi).1, if_neg hne]
    · intro i hi
      have hne : i ≠ newh := fun he => hqn (he ▸ hi)
      have hih : i ≠ h := fun he => ha.not_mem.2 (he ▸ hi)
      rw [hr.last, if_neg hih, if_neg hne]

theorem setLastByte_linked {v : Nat} (hL : Linked s (pre ++ (h, l) :: post)) (ho : OrderedHoles (pre ++ (h, l₀) :: post))
    (hv : v < 65536) : Linked { s with buf := setLastByte s.buf h v } (pre ++ (h, v) :: post) := by
  have ha := hL.atHole ho
  have hmem : indices (pre ++ (h, v) :: post) = indices (pre ++ (h, l) :: post) := by
    rw [indices_middle, indices_middle]
  refine ⟨?_, ?_, ?_⟩
  · rw [hmem]
    exact hL.first
  · rw [hmem]
    simpa using hL.links
  · refine hL.last_replaced (List.Sublist.refl pre) [(h, v)] ?_ ?_ ?_
    · refine forall_mem_singleton.2 ?_
      rw [lastByte_setLastByte, if_pos rfl, Nat.mod_eq_of_lt hv]
    · intro i hi
      rw [lastByte_setLastByte, if_neg (ha.not_mem.1 i hi).1]
    · intro i hi
      have hih : i ≠ h := fun he => ha.not_mem.2 (he ▸ hi)
      rw [lastByte_setLastByte, if_neg hih]

end DefragAux

end UBoot

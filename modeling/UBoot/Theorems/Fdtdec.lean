import UBoot.Fdtdec
import UBoot.Lib.Numbering

/-!
# The numbering by aliases

`fdtdec_find_aliases_for_id` numbers the enabled compatible nodes by the aliases that wish for numbers in range, with the number of an alias
taken modulo 2^32.
-/

namespace UBoot

namespace Fdtdec

open Lib

variable {blob : FdtView} {name compat : List UInt8} {maxcount i j k left : Nat} {nodes : List Nat} {st st' : AliasState}
  {taken : List (Nat × Nat)}
variable {x number node n : Nat} {p : Nat → Bool} {prop : FdtAlias} {nodeList : Nat → Nat} {wishes : List (Nat × Nat)}

def decimalValue (digits : List UInt8) : Nat := digits.foldl (fun n c => n * 10 + (c.toNat - 0x30)) 0

/-- The enabled compatible nodes, in the order of the tree. -/
def devices (blob : FdtView) (compat : List UInt8) : List Nat :=
  blob.nodes.filter fun node => blob.isCompatible compat node && blob.isEnabled node

/-- The number that an alias of a base name asks for, with the node it is asked for. -/
def aliasWish (name : List UInt8) (prop : FdtAlias) : Option (Nat × Nat) :=
  if prop.len ≠ 0 ∧ name <+: prop.name ∧ 0 < prop.target then some (decimalValue (prop.name.drop name.length), prop.target.toNat)
  else none

/-- An alias that begins with a base name is the name followed by a decimal number. -/
def Numbered (name : List UInt8) (prop : FdtAlias) : Prop :=
  name <+: prop.name → ∀ c ∈ prop.name.drop name.length, 0x30 ≤ c ∧ c ≤ 0x39

/-- What stands at a position of `node_list`. -/
def placed (nodeList : Nat → Nat) (i : Nat) : Option Nat := if nodeList i = 0 then none else some (nodeList i)

/-- One more than the last filled position. -/
def Counts (nodeList : Nat → Nat) (numFound : Nat) : Prop :=
  (∀ i, nodeList i ≠ 0 → i < numFound) ∧ (numFound ≠ 0 → nodeList (numFound - 1) ≠ 0)

/-! ## Decimal numbers -/

theorem xdigit_decimal {c : UInt8} (h : 0x30 ≤ c ∧ c ≤ 0x39) : xdigit c = some (c.toNat - 0x30) := if_pos h

theorem strtoulLoop_decimal (digits : List UInt8) (h : ∀ c ∈ digits, 0x30 ≤ c ∧ c ≤ 0x39) (n : Nat) :
    strtoulLoop 10 (n % 2 ^ 32) digits = digits.foldl (fun n c => n * 10 + (c.toNat - 0x30)) n % 2 ^ 32 := by
  induction digits generalizing n with
  | nil => rfl
  | cons c digits ih =>
    have hc := h c List.mem_cons_self
    have hle : c.toNat ≤ 0x39 := UInt8.le_iff_toNat_le.mp hc.2
    have hstep : (n % 2 ^ 32 * 10 + (c.toNat - 0x30)) % 2 ^ 32 = (n * 10 + (c.toNat - 0x30)) % 2 ^ 32 := by omega
    rw [strtoulLoop, xdigit_decimal hc]
    simp only [if_pos (show c.toNat - 0x30 < 10 by omega)]
    rw [hstep, ih (fun c hc => h c (List.mem_cons_of_mem _ hc))]
    rfl

theorem simpleStrtoul_decimal (digits : List UInt8) (h : ∀ c ∈ digits, 0x30 ≤ c ∧ c ≤ 0x39) :
    simpleStrtoul 10 digits = decimalValue digits % 2 ^ 32 := by
  have hloop := strtoulLoop_decimal digits h 0
  rw [Nat.zero_mod] at hloop
  rw [decimalValue, ← hloop, simpleStrtoul.eq_def]
  split
  next => exact absurd (h 0x78 (by simp)) (by decide)
  next => rfl

/-! ## The compatible nodes -/

theorem find?_sorted {l : List Nat} (hl : l.Pairwise (· < ·)) {rest : List Nat}
    (h : l.filter (fun n => decide (k < n)) = x :: rest) : l.filter (fun n => decide (x < n)) = rest := by
  have hx : k < x := by
    have := List.mem_filter.mp (h ▸ List.mem_cons_self : x ∈ l.filter _)
    simpa using this.2
  have hsorted : (x :: rest).Pairwise (· < ·) := h ▸ hl.filter _
  have hfilter : l.filter (fun n => decide (x < n)) = (x :: rest).filter (fun n => decide (x < n)) := by
    rw [← h, List.filter_filter]
    refine List.filter_congr fun n _ => ?_
    by_cases hn : x < n
    · simp [hn, Nat.lt_trans hx hn]
    · simp [hn]
  rw [hfilter, List.filter_cons_of_neg (by simp), List.filter_eq_self.mpr]
  intro n hn
  simpa using List.rel_of_pairwise_cons hsorted hn

theorem compatibleLoop_eq (blob : FdtView) (compat : List UInt8) (left node : Nat) : blob.compatibleLoop compat left node =
      ((blob.nodes.filter fun n => decide (compat ∈ blob.compatible n)).filter fun n => decide (node < n)).take left := by
  have hsorted := blob.sorted.filter fun n => decide (compat ∈ blob.compatible n)
  induction left generalizing node with
  | zero => rfl
  | succ left ih =>
    have hnext : blob.nextCompatible compat node =
        ((blob.nodes.filter fun n => decide (compat ∈ blob.compatible n)).filter fun n => decide (node < n)).head? := by
      rw [List.filter_filter, List.head?_filter]
      rfl
    rw [FdtView.compatibleLoop, hnext]
    cases hlist : (blob.nodes.filter fun n => decide (compat ∈ blob.compatible n)).filter fun n => decide (node < n) with
    | nil => rfl
    | cons x rest =>
      simp only [List.head?_cons, List.take_succ_cons]
      rw [ih, find?_sorted hsorted hlist]

theorem compatibles_eq (hroom : (blob.nodes.filter fun n => decide (compat ∈ blob.compatible n)).length ≤ maxcount) :
    blob.compatibleLoop compat maxcount 0 = blob.nodes.filter fun n => decide (compat ∈ blob.compatible n) := by
  have hall : (blob.nodes.filter fun n => decide (compat ∈ blob.compatible n)).filter (fun n => decide (0 < n)) =
      blob.nodes.filter fun n => decide (compat ∈ blob.compatible n) :=
    List.filter_eq_self.mpr fun n hn => by simpa using blob.positive n (List.mem_of_mem_filter hn)
  rw [compatibleLoop_eq, hall, List.take_of_length_le hroom]

/-! ## The aliases -/

/-- The nodes that are left to be numbered. -/
def remaining (blob : FdtView) (nodes : List Nat) : List Nat := nodes.filter fun node => decide (node ≠ 0) && blob.isEnabled node

/-- The state after some aliases, of which some wishes were granted. -/
structure Represents (blob : FdtView) (compat : List UInt8) (taken : List (Nat × Nat)) (st : AliasState) : Prop where
  nonzero : ∀ t ∈ taken, t.2 ≠ 0
  list : ∀ q node, node ≠ 0 → (st.nodeList q = node ↔ (q, node) ∈ taken)
  left : remaining blob st.nodes = (devices blob compat).filter fun node => decide (node ∉ taken.map Prod.snd)
  count : Counts st.nodeList st.numFound

/-- A node that is done is no longer left. -/
theorem filter_set_idxOf (hzero : p 0 = false) (l : List Nat) (x : Nat) :
    (l.set (l.idxOf x) 0).filter p = if p x then (l.filter p).erase x else l.filter p := by
  induction l with
  | nil => simp
  | cons y l ih =>
    by_cases hy : y = x
    · subst hy
      rw [List.idxOf_cons_self, List.set_cons_zero, List.filter_cons_of_neg (by simp [hzero])]
      by_cases hp : p y
      · rw [if_pos hp, List.filter_cons_of_pos hp, List.erase_cons_head]
      · rw [if_neg hp, List.filter_cons_of_neg hp]
    · rw [List.idxOf_cons_ne _ hy, List.set_cons_succ, List.filter_cons, ih, List.filter_cons]
      by_cases hp : p x
      · simp only [if_pos hp]
        by_cases hpy : p y
        · rw [if_pos hpy, if_pos hpy, List.erase_cons_tail (by simpa using hy)]
        · rw [if_neg hpy, if_neg hpy]
      · simp only [if_neg hp]

theorem Counts.put (h : Counts st.nodeList st.numFound) (hnode : node ≠ 0) (hfree : st.nodeList number = 0) :
    Counts (st.put number node).nodeList (st.put number node).numFound := by
  simp only [AliasState.put]
  refine ⟨fun i hi => ?_, fun hne => ?_⟩
  · by_cases hin : i = number
    · split <;> omega
    · rw [Function.update_of_ne hin] at hi
      have := h.1 i hi
      split <;> omega
  · split
    · rw [Nat.add_sub_cancel, Function.update_self]
      exact hnode
    · rename_i hlt
      have hlast := h.2 (by omega)
      rw [Function.update_of_ne]
      · exact hlast
      · intro heq
        exact hlast (heq ▸ hfree)

theorem mem_remaining : node ∈ remaining blob nodes ↔ node ∈ nodes ∧ node ≠ 0 ∧ blob.isEnabled node = true := by
  simp [remaining]

theorem mem_devices : node ∈ devices blob compat ↔ node ∈ blob.nodes ∧ compat ∈ blob.compatible node ∧ blob.isEnabled node = true := by
  simp [devices, FdtView.isCompatible]

theorem devices_sorted : (devices blob compat).Pairwise (· < ·) := blob.sorted.filter _

theorem Represents.put (h : Represents blob compat taken st)
    (hgrants : Grants (devices blob compat) maxcount taken (number, node)) (hnode : node ≠ 0) (hfree : st.nodeList number = 0) :
    Represents blob compat ((number, node) :: taken) ((st.put number node).done node) where
  nonzero := fun t ht => by
    rcases List.mem_cons.mp ht with rfl | ht
    · exact hnode
    · exact h.nonzero t ht
  list := fun q n hn => by
    have heq : ((st.put number node).done node).nodeList = Function.update st.nodeList number node := rfl
    rw [heq, List.mem_cons, Prod.mk.injEq, ← h.list q n hn]
    by_cases hq : q = number
    · subst hq
      rw [Function.update_self, hfree]
      simp [eq_comm, hn]
    · rw [Function.update_of_ne hq]
      simp [hq]
  left := by
    have henabled := (mem_devices.mp hgrants.2.1).2.2
    have heq : remaining blob ((st.put number node).done node).nodes = (remaining blob st.nodes).erase node := by
      have := filter_set_idxOf (p := fun node => decide (node ≠ 0) && blob.isEnabled node) (by simp) st.nodes node
      rwa [if_pos (by simp [hnode, henabled])] at this
    rw [heq, h.left, List.Nodup.erase_eq_filter ((devices_sorted.imp fun hlt => Nat.ne_of_lt hlt).filter _), List.filter_filter]
    refine List.filter_congr fun n _ => ?_
    rw [Bool.eq_iff_iff, Bool.and_eq_true, bne_iff_ne, decide_eq_true_eq, decide_eq_true_eq, List.map_cons, List.mem_cons, not_or]
  count := h.count.put hnode hfree

theorem Represents.done (h : Represents blob compat taken st) (hdisabled : blob.isEnabled node = false) :
    Represents blob compat taken (st.done node) where
  nonzero := h.nonzero
  list := h.list
  left := by
    have heq := filter_set_idxOf (p := fun node => decide (node ≠ 0) && blob.isEnabled node) (by simp) st.nodes node
    rw [if_neg (by simp [hdisabled])] at heq
    exact heq.trans h.left
  count := h.count

theorem toLong_inRange (hn : n < 2 ^ 32) (hmax : maxcount < 2 ^ 31) : (toLong n < 0 ∨ (maxcount : Int) ≤ toLong n) ↔ maxcount ≤ n := by
  unfold toLong
  split <;> omega

theorem Represents.addAlias (h : Represents blob compat taken st) (hmax : maxcount < 2 ^ 31) (hnumbered : Numbered name prop)
    {wish : Nat × Nat} (hwish : aliasWish name prop = some wish) :
    Represents blob compat (grant (devices blob compat) maxcount taken (wish.1 % 2 ^ 32, wish.2)) (blob.addAlias name maxcount st prop) := by
  unfold aliasWish at hwish
  split at hwish
  case isFalse => cases hwish
  case isTrue halias =>
    obtain ⟨hlen, hprefix, htarget⟩ := halias
    cases hwish
    have hlt : decimalValue (prop.name.drop name.length) % 2 ^ 32 < 2 ^ 32 := Nat.mod_lt _ (by decide)
    have hnode : prop.target.toNat ≠ 0 := by omega
    simp only [FdtView.addAlias, if_pos (And.intro hlen hprefix), if_neg (Int.not_le.mpr htarget),
      simpleStrtoul_decimal _ (hnumbered hprefix), toLong_inRange hlt hmax]
    generalize decimalValue (prop.name.drop name.length) % 2 ^ 32 = number at hlt
    generalize prop.target.toNat = node at hnode
    by_cases hrange : maxcount ≤ number
    · rw [if_pos hrange, grant, if_neg fun hgrants => absurd hgrants.1 (Nat.not_lt.mpr hrange)]
      exact h
    have hint : (toLong number).toNat = number := by rw [toLong_of_lt (by omega), Int.toNat_natCast]
    rw [if_neg hrange, hint]
    -- What is left of the list are the nodes that no granted wish was for.
    have hleft : node ∈ st.nodes ∧ blob.isEnabled node = true ↔ node ∈ devices blob compat ∧ node ∉ taken.map Prod.snd := by
      have hmem : node ∈ remaining blob st.nodes ↔ _ := mem_remaining
      rw [h.left, List.mem_filter, decide_eq_true_eq] at hmem
      rw [hmem]
      simp [hnode]
    have hwished (hgrants : Grants (devices blob compat) maxcount taken (number, node)) : node ∈ st.nodes ∧ blob.isEnabled node = true := by
      refine hleft.mpr ⟨hgrants.2.1, fun htaken => ?_⟩
      obtain ⟨t, ht, hnode⟩ := List.mem_map.mp htaken
      exact (hgrants.2.2 t ht).2 hnode
    by_cases hfound : node ∈ st.nodes
    · rw [if_neg (not_not.mpr hfound)]
      cases henabled : blob.isEnabled node with
      | false =>
        rw [if_neg Bool.false_ne_true, grant, if_neg fun hgrants => absurd (hwished hgrants).2 (by simp [henabled])]
        exact h.done henabled
      | true =>
        rw [if_pos rfl]
        obtain ⟨hdevice, hopen⟩ := hleft.mp ⟨hfound, henabled⟩
        by_cases hfree : st.nodeList number = 0
        · have hgrants : Grants (devices blob compat) maxcount taken (number, node) := by
            refine ⟨Nat.not_le.mp hrange, hdevice, fun t ht => ⟨fun hnumber => ?_, fun hsame => ?_⟩⟩
            · have := (h.list t.1 t.2 (h.nonzero t ht)).mpr ht
              rw [hnumber, hfree] at this
              exact h.nonzero t ht this.symm
            · exact hopen (List.mem_map.mpr ⟨t, ht, hsame⟩)
          rw [if_neg (not_not.mpr hfree), grant, if_pos hgrants]
          exact h.put hgrants hnode hfree
        · have htaken := (h.list number _ hfree).mp rfl
          rw [if_pos hfree, grant, if_neg fun hgrants => absurd rfl (hgrants.2.2 _ htaken).1]
          exact h
    · rw [if_pos hfound, grant, if_neg fun hgrants => hfound (hwished hgrants).1]
      exact h

theorem addAlias_of_none (hwish : aliasWish name prop = none) : blob.addAlias name maxcount st prop = st := by
  unfold aliasWish at hwish
  split at hwish
  case isTrue => cases hwish
  case isFalse halias =>
    unfold FdtView.addAlias
    simp only
    rw [if_pos]
    split
    · rename_i hprop
      exact Int.not_lt.mp fun htarget => halias ⟨hprop.1, hprop.2, htarget⟩
    · exact Int.le_refl 0

/-- All aliases, by induction on those that are left. -/
theorem Represents.foldl (hmax : maxcount < 2 ^ 31) (aliases : List FdtAlias) (hnumbered : ∀ prop ∈ aliases, Numbered name prop)
    (h : Represents blob compat taken st) :
    Represents blob compat ((mapWishes (· % 2 ^ 32) (aliases.filterMap (aliasWish name))).foldl (grant (devices blob compat) maxcount) taken)
      (aliases.foldl (blob.addAlias name maxcount) st) := by
  induction aliases generalizing taken st with
  | nil => exact h
  | cons prop aliases ih =>
    have hrest (p : FdtAlias) (hp : p ∈ aliases) : Numbered name p := hnumbered p (List.mem_cons_of_mem _ hp)
    rw [List.foldl_cons]
    cases hwish : aliasWish name prop with
    | none =>
      rw [List.filterMap_cons_none hwish, addAlias_of_none hwish]
      exact ih hrest h
    | some wish =>
      rw [List.filterMap_cons_some hwish]
      exact ih hrest (h.addAlias hmax (hnumbered prop List.mem_cons_self) hwish)

/-! ## The nodes without an alias -/

/-- A position that is filled. -/
def Filled (st st' : AliasState) (k : Nat) : Prop := st.nodeList k = 0 ∧ st'.nodeList k ≠ 0

/-- What the second loop does from position `i` on: it fills the lowest free positions with all nodes that are left, in order. -/
structure Fills (i left : Nat) (nodes : List Nat) (st st' : AliasState) : Prop where
  frame : ∀ k, ¬Filled st st' k → st'.nodeList k = st.nodeList k
  range : ∀ k, Filled st st' k → i ≤ k ∧ k < i + left ∧ st'.nodeList k ∈ nodes
  all : ∀ node ∈ nodes, ∃ k, Filled st st' k ∧ st'.nodeList k = node
  order : ∀ j k, Filled st st' j → Filled st st' k → j < k → st'.nodeList j < st'.nodeList k
  lowest : ∀ j k, i ≤ j → st'.nodeList j = 0 → Filled st st' k → k < j
  count : Counts st.nodeList st.numFound → Counts st'.nodeList st'.numFound

theorem Fills.nil : Fills i left [] st st where
  frame := fun _ _ => rfl
  range := fun _ h => absurd h.1 h.2
  all := fun _ h => absurd h List.not_mem_nil
  order := fun _ _ h => absurd h.1 h.2
  lowest := fun _ _ _ _ h => absurd h.1 h.2
  count := id

theorem Fills.skip (hfree : st.nodeList i ≠ 0) (h : Fills (i + 1) left nodes st st') : Fills i (left + 1) nodes st st' where
  frame := h.frame
  range := fun k hk => by
    have := h.range k hk
    exact ⟨by omega, by omega, this.2.2⟩
  all := h.all
  order := h.order
  lowest := fun j k hij hj hk => by
    have hne : j ≠ i := fun he => by
      subst he
      exact hfree ((h.frame j fun hf => hfree hf.1) ▸ hj)
    exact h.lowest j k (by omega) hj hk
  count := h.count

theorem Fills.put (hfree : st.nodeList i = 0) (hnode : node ≠ 0) (hsorted : (node :: nodes).Pairwise (· < ·))
    (h : Fills (i + 1) left nodes (st.put i node) st') : Fills i (left + 1) (node :: nodes) st st' := by
  have hput : (st.put i node).nodeList i = node := Function.update_self ..
  have hi : st'.nodeList i = node := (h.frame i fun hf => hnode (hput.symm.trans hf.1)).trans hput
  have hother {k : Nat} (hk : k ≠ i) : (st.put i node).nodeList k = st.nodeList k := Function.update_of_ne hk ..
  have hfilled {k : Nat} (hk : k ≠ i) : Filled (st.put i node) st' k ↔ Filled st st' k := by rw [Filled, hother hk, Filled]
  have hself : Filled st st' i := ⟨hfree, hi ▸ hnode⟩
  have hgt {k : Nat} (hk : k ≠ i) (hf : Filled st st' k) : i < k ∧ node < st'.nodeList k := by
    have := h.range k ((hfilled hk).mpr hf)
    exact ⟨by omega, List.rel_of_pairwise_cons hsorted this.2.2⟩
  refine ⟨fun k hk => ?_, fun k hk => ?_, fun n hn => ?_, fun j k hj hk hjk => ?_, fun j k hij hj hk => ?_,
    fun hcount => h.count (hcount.put hnode hfree)⟩
  · have hki : k ≠ i := fun he => hk (he ▸ hself)
    exact (h.frame k (mt (hfilled hki).mp hk)).trans (hother hki)
  · by_cases hki : k = i
    · rw [hki, hi]
      exact ⟨Nat.le_refl i, by omega, List.mem_cons_self⟩
    · have := h.range k ((hfilled hki).mpr hk)
      exact ⟨by omega, by omega, List.mem_cons_of_mem _ this.2.2⟩
  · rcases List.mem_cons.mp hn with rfl | hn
    · exact ⟨i, hself, hi⟩
    · obtain ⟨k, hk, hkn⟩ := h.all n hn
      have hki : k ≠ i := fun he => by
        have := (h.range k hk).1
        omega
      exact ⟨k, (hfilled hki).mp hk, hkn⟩
  · have hki : k ≠ i := fun he => by
      by_cases hji : j = i
      · omega
      · have := (hgt hji hj).1
        omega
    by_cases hji : j = i
    · rw [hji, hi]
      exact (hgt hki hk).2
    · exact h.order j k ((hfilled hji).mpr hj) ((hfilled hki).mpr hk) hjk
  · have hji : j ≠ i := fun he => hnode (by rw [← hi, ← he, hj])
    by_cases hki : k = i
    · omega
    · exact h.lowest j k (by omega) hj ((hfilled hki).mpr hk)

theorem filter_of_dropWhile (l : List Nat) :
    match l.dropWhile fun x => !p x with
    | [] => l.filter p = []
    | x :: rest => l.filter p = x :: rest.filter p := by
  induction l with
  | nil => rfl
  | cons y l ih =>
    cases hy : p y with
    | true => simp [hy]
    | false => simpa [hy] using ih

/-- The second loop, with at least as many free positions as nodes: by induction on the positions that are left. -/
theorem fills_fillLoop (left i : Nat) (nodes : List Nat) (st : AliasState) (hsorted : (remaining blob nodes).Pairwise (· < ·))
    (hroom : (remaining blob nodes).length ≤ ((List.range' i left).filter fun k => decide (st.nodeList k = 0)).length) :
    Fills i left (remaining blob nodes) st (blob.fillLoop left i nodes st) := by
  induction left generalizing i nodes st with
  | zero =>
    have hnil : remaining blob nodes = [] := List.eq_nil_of_length_eq_zero (Nat.le_zero.mp hroom)
    rw [hnil]
    exact Fills.nil
  | succ left ih =>
    rw [List.range'_succ] at hroom
    rw [FdtView.fillLoop]
    split
    case isFalse hfree =>
      rw [List.filter_cons_of_neg (by simpa using hfree)] at hroom
      exact (ih (i + 1) nodes st hsorted hroom).skip hfree
    case isTrue hfree =>
      have hdrop := filter_of_dropWhile (p := fun node => decide (node ≠ 0) && blob.isEnabled node) nodes
      split
      next hnil =>
        rw [hnil] at hdrop
        rw [remaining, hdrop]
        exact Fills.nil
      next node rest hcons =>
        rw [hcons] at hdrop
        have hrem : remaining blob nodes = node :: remaining blob rest := hdrop
        have hmem : node ∈ remaining blob nodes := hrem ▸ List.mem_cons_self
        have hnode : node ≠ 0 := (mem_remaining.mp hmem).2.1
        rw [List.filter_cons_of_pos (by simpa using hfree), hrem, List.length_cons, List.length_cons] at hroom
        rw [hrem] at hsorted ⊢
        refine (ih (i + 1) rest (st.put i node) (List.Pairwise.of_cons hsorted) ?_).put hfree hnode hsorted
        refine Nat.le_trans (Nat.le_of_succ_le_succ hroom) (Nat.le_of_eq (congrArg List.length (List.filter_congr fun k hk => ?_)))
        have hki : k ≠ i := by
          have := (List.mem_range'_1.mp hk).1
          omega
        rw [show (st.put i node).nodeList k = st.nodeList k from Function.update_of_ne hki ..]

/-! ## Both loops -/

theorem placed_eq_some : placed nodeList i = some x ↔ nodeList i = x ∧ x ≠ 0 := by
  unfold placed
  split
  next h => simp [h, eq_comm]
  next h =>
    rw [Option.some.injEq]
    exact ⟨fun he => ⟨he, he ▸ h⟩, fun he => he.1⟩

theorem placed_eq_none : placed nodeList i = none ↔ nodeList i = 0 := by simp [placed]

/-- There are at least as many free positions as nodes without an alias. -/
theorem room (hdevices : (devices blob compat).length ≤ maxcount)
    (h : Represents blob compat (granted (devices blob compat) maxcount wishes) st) :
    (remaining blob st.nodes).length ≤ ((List.range' 0 maxcount).filter fun k => decide (st.nodeList k = 0)).length := by
  have hsplit := List.length_eq_length_filter_add (l := devices blob compat)
    fun node => decide (node ∉ (granted (devices blob compat) maxcount wishes).map Prod.snd)
  have hpositions := List.length_eq_length_filter_add (l := List.range' 0 maxcount) fun k => decide (st.nodeList k = 0)
  rw [List.length_range'] at hpositions
  -- The nodes at the positions that are not free are different nodes with an alias.
  have hfilled : (((List.range' 0 maxcount).filter fun k => !decide (st.nodeList k = 0)).map st.nodeList).length ≤
      ((devices blob compat).filter fun node => !decide (node ∉ (granted (devices blob compat) maxcount wishes).map Prod.snd)).length := by
    refine (List.subperm_of_subset ?_ ?_).length_le
    · refine List.Nodup.map_on (fun i hi j hj hij => ?_) ((List.nodup_range' ..).filter _)
      have hi := (h.list i _ (by simpa using (List.mem_filter.mp hi).2)).mp rfl
      have hj := (h.list j _ (by simpa using (List.mem_filter.mp hj).2)).mp rfl
      exact congrArg Prod.fst (granted_inj hi hj (Or.inr hij))
    · intro node hnode
      obtain ⟨k, hk, rfl⟩ := List.mem_map.mp hnode
      have hk := (h.list k _ (by simpa using (List.mem_filter.mp hk).2)).mp rfl
      refine List.mem_filter.mpr ⟨(granted_sound hk).2.2, ?_⟩
      rw [Bool.not_eq_true', decide_eq_false_iff_not, not_not]
      exact List.mem_map.mpr ⟨_, hk, rfl⟩
  rw [List.length_map] at hfilled
  rw [h.left]
  omega

theorem Fills.lt_of_lt {lo : Nat} (h : Fills lo n nodes st st') (hi : Filled st st' i) (hj : Filled st st' j)
    (hlt : st'.nodeList i < st'.nodeList j) : i < j := by
  rcases Nat.lt_trichotomy i j with hij | rfl | hji
  · exact hij
  · exact absurd hlt (Nat.lt_irrefl _)
  · exact absurd hlt (Nat.not_lt.mpr (Nat.le_of_lt (h.order j i hj hi hji)))

theorem Fills.inj {lo : Nat} (h : Fills lo n nodes st st') (hi : Filled st st' i) (hj : Filled st st' j)
    (heq : st'.nodeList i = st'.nodeList j) : i = j := by
  rcases Nat.lt_trichotomy i j with hij | hij | hji
  · exact absurd heq (Nat.ne_of_lt (h.order i j hi hj hij))
  · exact hij
  · exact absurd heq.symm (Nat.ne_of_lt (h.order j i hj hi hji))

theorem numbering_of_fills (h : Represents blob compat (granted (devices blob compat) maxcount wishes) st)
    (hfills : Fills 0 maxcount (remaining blob st.nodes) st st') :
    Numbering (devices blob compat) maxcount wishes (placed st'.nodeList) := by
  have hmem (x : Nat) : x ∈ remaining blob st.nodes ↔
      x ∈ devices blob compat ∧ x ∉ (granted (devices blob compat) maxcount wishes).map Prod.snd := by
    rw [h.left, List.mem_filter, decide_eq_true_eq]
  have hpositive (x : Nat) (hx : x ∈ devices blob compat) : x ≠ 0 := Nat.ne_of_gt (blob.positive x (mem_devices.mp hx).1)
  -- A node stands at the number of its granted wish, or was filled in.
  have hcases {i x : Nat} (hi : placed st'.nodeList i = some x) :
      (i, x) ∈ granted (devices blob compat) maxcount wishes ∨ Filled st st' i ∧ st'.nodeList i = x := by
    obtain ⟨hix, hx⟩ := placed_eq_some.mp hi
    by_cases hfilled : Filled st st' i
    · exact Or.inr ⟨hfilled, hix⟩
    · exact Or.inl ((h.list i x hx).mp ((hfills.frame i hfilled).symm.trans hix))
  have htaken (t : Nat × Nat) (ht : t ∈ granted (devices blob compat) maxcount wishes) : placed st'.nodeList t.1 = some t.2 := by
    have hlist := (h.list t.1 t.2 (h.nonzero t ht)).mpr ht
    refine placed_eq_some.mpr ⟨(hfills.frame t.1 fun hf => h.nonzero t ht ?_).trans hlist, h.nonzero t ht⟩
    exact hlist.symm.trans hf.1
  have hapart {i j x : Nat} (hi : (i, x) ∈ granted (devices blob compat) maxcount wishes) (hj : Filled st st' j) (hjx : st'.nodeList j = x) :
      False := by
    have := (hmem x).mp (hjx ▸ (hfills.range j hj).2.2)
    exact this.2 (List.mem_map.mpr ⟨_, hi, rfl⟩)
  refine ⟨fun x hx => ?_, fun {i j x} _ _ hi hj => ?_, fun {i x} _ hi => ?_, htaken, fun {i j x y} _ _ hi hj hix hjy hxy => ?_,
    fun {i j x} hij _ hi hj => ?_⟩
  · by_cases hwish : x ∈ (granted (devices blob compat) maxcount wishes).map Prod.snd
    · obtain ⟨t, ht, rfl⟩ := List.mem_map.mp hwish
      exact ⟨t.1, (granted_sound ht).2.1, htaken t ht⟩
    · obtain ⟨k, hk, hkx⟩ := hfills.all x ((hmem x).mpr ⟨hx, hwish⟩)
      have hrange := (hfills.range k hk).2.1
      exact ⟨k, by omega, placed_eq_some.mpr ⟨hkx, hpositive x hx⟩⟩
  · rcases hcases hi with hi | ⟨hi, hix⟩ <;> rcases hcases hj with hj | ⟨hj, hjx⟩
    · exact congrArg Prod.fst (granted_inj hi hj (Or.inr rfl))
    · exact (hapart hi hj hjx).elim
    · exact (hapart hj hi hix).elim
    · exact hfills.inj hi hj (hix.trans hjx.symm)
  · rcases hcases hi with hi | ⟨hi, hix⟩
    · exact (granted_sound hi).2.2
    · exact ((hmem x).mp (hix ▸ (hfills.range i hi).2.2)).1
  · obtain ⟨hi, hix⟩ := (hcases hi).resolve_left hix
    obtain ⟨hj, hjy⟩ := (hcases hj).resolve_left hjy
    exact hfills.lt_of_lt hi hj (by omega)
  · refine (hcases hj).resolve_right fun hfilled => ?_
    have := hfills.lowest i j (Nat.zero_le i) (placed_eq_none.mp hi) hfilled.1
    omega

theorem numbers (blob : FdtView) (name compat : List UInt8) (hmax : maxcount < 2 ^ 31)
    (hroom : (blob.nodes.filter fun n => decide (compat ∈ blob.compatible n)).length ≤ maxcount)
    (hnumbered : ∀ prop ∈ blob.aliases, Numbered name prop) :
    Numbering (devices blob compat) maxcount (mapWishes (· % 2 ^ 32) (blob.aliases.filterMap (aliasWish name)))
        (placed (fdtdecFindAliasesForId blob name compat maxcount).2) ∧
      Counts (fdtdecFindAliasesForId blob name compat maxcount).2 (fdtdecFindAliasesForId blob name compat maxcount).1 := by
  have hdevices : devices blob compat = (blob.nodes.filter fun n => decide (compat ∈ blob.compatible n)).filter blob.isEnabled := by
    rw [List.filter_filter]
    exact List.filter_congr fun n _ => Bool.and_comm ..
  have hfirst : Represents blob compat [] ⟨blob.compatibleLoop compat maxcount 0, fun _ => 0, 0⟩ := by
    refine ⟨fun t ht => absurd ht List.not_mem_nil, fun q node hnode => ?_, ?_, fun i hi => absurd rfl hi, fun hne => absurd rfl hne⟩
    · exact iff_of_false (Ne.symm hnode) List.not_mem_nil
    · have hall : (devices blob compat).filter (fun node => decide (node ∉ ([] : List (Nat × Nat)).map Prod.snd)) = devices blob compat :=
        List.filter_eq_self.mpr fun _ _ => rfl
      rw [compatibles_eq hroom, hall, hdevices]
      refine List.filter_congr fun n hn => ?_
      have hpositive := blob.positive n (List.mem_of_mem_filter hn)
      simp [Nat.ne_of_gt hpositive]
  have haliases := hfirst.foldl hmax blob.aliases hnumbered
  have hlen : (devices blob compat).length ≤ maxcount := Nat.le_trans (hdevices ▸ List.length_filter_le _ _) hroom
  have hsorted : (remaining blob (blob.aliases.foldl (blob.addAlias name maxcount)
      ⟨blob.compatibleLoop compat maxcount 0, fun _ => 0, 0⟩).nodes).Pairwise (· < ·) := haliases.left ▸ devices_sorted.filter _
  have hfills := fills_fillLoop maxcount 0 _ _ hsorted (room hlen haliases)
  exact ⟨numbering_of_fills haliases hfills, hfills.count haliases.count⟩

/-- The numbering that the aliases of a tree ask for, and the number of positions up to the last one filled. -/
structure Assigns (blob : FdtView) (name compat : List UInt8) (maxcount : Nat) (r : Nat × (Nat → Nat)) : Prop where
  numbering : Numbering (devices blob compat) maxcount (blob.aliases.filterMap (aliasWish name)) (placed r.2)
  count : Counts r.2 r.1

end Fdtdec

/-- `fdtdec_find_aliases_for_id` is right exactly if the aliases do no harm whose numbers are out of range, but in range modulo 2^32. -/
theorem fdtdec_find_aliases_iff (blob : FdtView) (name compat : List UInt8) (maxcount : Nat) (hmax : maxcount < 2 ^ 31)
    (hroom : (blob.nodes.filter fun n => decide (compat ∈ blob.compatible n)).length ≤ maxcount)
    (hnumbered : ∀ prop ∈ blob.aliases, Fdtdec.Numbered name prop) :
    Fdtdec.Assigns blob name compat maxcount (fdtdecFindAliasesForId blob name compat maxcount) ↔
      ∃ place, Lib.Numbering (Fdtdec.devices blob compat) maxcount (blob.aliases.filterMap (Fdtdec.aliasWish name)) place ∧
        Lib.Harmless (Fdtdec.devices blob compat) maxcount (· % 2 ^ 32) (blob.aliases.filterMap (Fdtdec.aliasWish name)) place := by
  obtain ⟨hnumbering, hcount⟩ := Fdtdec.numbers blob name compat hmax hroom hnumbered
  rw [← hnumbering.map_iff fun n hn => Nat.mod_eq_of_lt (by omega)]
  exact ⟨fun h => h.numbering, fun h => ⟨h, hcount⟩⟩

/-- Two devices `a` and `b`, and an alias of `b`. -/
def twoDevices (number : List UInt8) : FdtView where
  nodes := [8, 16]
  compatible := fun _ => [[0x61]]
  status := fun _ => none
  aliases := [⟨0x69 :: number, 4, 16⟩]
  sorted := by decide
  positive := by decide

/-- The alias `i0` puts the second device first. -/
theorem fdtdec_find_aliases_zero :
    Fdtdec.Assigns (twoDevices [0x30]) [0x69] [0x61] 2 (fdtdecFindAliasesForId (twoDevices [0x30]) [0x69] [0x61] 2) := by
  have hnumbered : ∀ prop ∈ (twoDevices [0x30]).aliases, Fdtdec.Numbered [0x69] prop := by
    intro prop hprop
    rw [List.mem_singleton.mp hprop]
    intro _ c hc
    rw [List.mem_singleton.mp hc]
    decide
  refine (fdtdec_find_aliases_iff (twoDevices [0x30]) [0x69] [0x61] 2 (by decide) (by decide) hnumbered).mpr ⟨_,
    (Fdtdec.numbers (twoDevices [0x30]) [0x69] [0x61] (by decide) (by decide) hnumbered).1, ?_⟩
  intro before wish after hwishes hout
  have hwish : wish ∈ (twoDevices [0x30]).aliases.filterMap (Fdtdec.aliasWish [0x69]) := hwishes ▸ List.mem_append_right _ List.mem_cons_self
  rw [List.mem_singleton.mp hwish] at hout
  exact absurd hout (by decide)

/-- The alias `i4294967296` puts the second device first, too. -/
theorem fdtdec_find_aliases_wrapped : ¬∀ (blob : FdtView) (name compat : List UInt8) (maxcount : Nat), maxcount < 2 ^ 31 →
      (blob.nodes.filter fun n => decide (compat ∈ blob.compatible n)).length ≤ maxcount → (∀ prop ∈ blob.aliases, Fdtdec.Numbered name prop) →
          Fdtdec.Assigns blob name compat maxcount (fdtdecFindAliasesForId blob name compat maxcount) := by
  intro h
  have hassigns := h (twoDevices [0x34, 0x32, 0x39, 0x34, 0x39, 0x36, 0x37, 0x32, 0x39, 0x36]) [0x69] [0x61] 2 (by decide) (by decide) (by
    intro prop hprop
    rw [List.mem_singleton.mp hprop]
    intro _
    decide)
  have horder := hassigns.numbering.order (i := 1) (j := 0) (x := 8) (y := 16) (by decide) (by decide) (by decide) (by decide)
    (by decide) (by decide) (by decide)
  exact absurd horder (by decide)

end UBoot

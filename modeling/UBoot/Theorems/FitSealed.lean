import UBoot.Lemmas.FdtWalk

/-!
# Sealed images

What `mkimage` seals `bootm` accepts, and nothing else. A blob is the flattening of any tree; the number of nodes bounds the loops.
-/

namespace UBoot

open CString

/-- What a hash node holds for an algorithm: four bytes of a CRC, the most significant first, the twenty bytes of a SHA1 or the sixteen of
an MD5. No other algorithm is supported. -/
def HashValue (h : HashFns) (data : List UInt8) (algo : CString) (value : List UInt8) : Prop :=
  (algo.bytes = algoCrc32 ∧ value.length = 4 ∧ value.foldl (fun n b => 256 * n + b.toNat) 0 = (crc32 0 data).toNat) ∨
    (algo.bytes = algoSha1 ∧ value.length = 20 ∧ value = (h.sha1 data).toList) ∨
    (algo.bytes = algoMd5 ∧ value.length = 16 ∧ value = (h.md5 data).toList)

/-- A subnode of an image with these data is no hash node, or names a supported algorithm and holds the hash that it gives. -/
def HashNodeOk (h : HashFns) (data : List UInt8) (sub : FdtNode) : Prop :=
  isHashNode (some sub.name) → ∃ algo value, sub.getprop FIT_ALGO_PROP = some algo ∧ sub.getprop FIT_VALUE_PROP = some value ∧
    HashValue h data (ofBytes algo) value

/-- An image has data and every hash node of it is good for them. -/
def ImageOk (h : HashFns) (image : FdtNode) : Prop :=
  ∃ data, image.getprop FIT_DATA_PROP = some data ∧ ∀ sub ∈ image.subs.children, HashNodeOk h data sub

namespace FitSealed

open FdtWalk

variable {R : FdtNode → FdtNode → Prop} {subs subs' : FdtSubs} {value : List UInt8} {fuel : Nat}

theorem subsRel_count (hR : ∀ n n', R n n' → n'.count = n.count)
    (h : SubsRel R subs subs') : subs'.count = subs.count := by
  induction h with
  | nil => rfl
  | nop _ ih => exact ih
  | cons hnode _ ih => rw [FdtSubs.count, FdtSubs.count, hR _ _ hnode, ih]

theorem subsRel_children {P : FdtNode → Prop} (hR : ∀ n n', R n n' → P n')
    (h : SubsRel R subs subs') : ∀ n ∈ subs'.children, P n := by
  induction h with
  | nil => simp [FdtSubs.children]
  | nop _ ih => exact ih
  | cons hnode _ ih => simpa [FdtSubs.children, hR _ _ hnode] using ih

theorem subsRel_eq (hR : ∀ n n', R n n' → n' = n) (h : SubsRel R subs subs') :
    subs' = subs := by
  induction h with
  | nil => rfl
  | nop _ ih => rw [ih]
  | cons hnode _ ih => rw [hR _ _ hnode, ih]

/-! ## The checker -/

theorem uint32Be_iff {x : UInt32} :
    uint32Be x = value ↔ value.length = 4 ∧ value.foldl (fun n b => 256 * n + b.toNat) 0 = x.toNat := by
  constructor
  · rintro rfl
    have hx := x.toNat_lt
    simp [uint32Be, Nat.shiftRight_eq_div_pow]
    omega
  · rintro ⟨hlen, hfold⟩
    rcases value with _ | ⟨a, _ | ⟨b, _ | ⟨c, _ | ⟨d, _ | ⟨e, rest⟩⟩⟩⟩⟩ <;> simp at hlen
    have ha := a.toNat_lt
    have hb := b.toNat_lt
    have hc := c.toNat_lt
    have hd := d.toNat_lt
    simp only [List.foldl_cons, List.foldl_nil] at hfold
    simp [uint32Be, ← UInt8.toNat_inj, Nat.shiftRight_eq_div_pow, ← hfold]
    omega

/-- `calculate_hash` gives the value to hold, if the algorithm is supported. -/
theorem calculateHash_iff {h : HashFns} {data : List UInt8} {algo : CString} :
    calculateHash h data algo = some value ↔ HashValue h data algo value := by
  rw [calculateHash, HashValue, ← uint32Be_iff]
  split_ifs with hcrc32 hsha1 hmd5
  · simp [hcrc32, algoCrc32, algoSha1, algoMd5]
  · have hlen : (h.sha1 data).toList.length = 20 := by simp
    simp only [hsha1, Option.some.injEq]
    simp [algoCrc32, algoSha1, algoMd5]
    exact ⟨fun heq => ⟨heq ▸ hlen, heq.symm⟩, fun heq => heq.2.symm⟩
  · have hlen : (h.md5 data).toList.length = 16 := by simp
    simp only [hmd5, Option.some.injEq]
    simp [algoCrc32, algoSha1, algoMd5]
    exact ⟨fun heq => ⟨heq ▸ hlen, heq.symm⟩, fun heq => heq.2.symm⟩
  · simp [hcrc32, hsha1, hmd5]

/-- A check at a subnode fails with 1 if the subnode is bad, and passes with 0 otherwise. -/
theorem checkHashNode_node (h : HashFns) (data : List UInt8) (pre post : Fdt) (sub : FdtNode) :
    (¬ HashNodeOk h data sub ∧ checkHashNode h data (pre ++ sub.flatten ++ post) pre.length = 1) ∨
      (HashNodeOk h data sub ∧ checkHashNode h data (pre ++ sub.flatten ++ post) pre.length = 0) := by
  rw [checkHashNode, fitImageHashGetAlgo, fitImageHashGetValue, fdtGetName_node, fdtGetprop_node, fdtGetprop_node]
  by_cases hhash : isHashNode (some sub.name)
  · simp only [HashNodeOk, ← calculateHash_iff, hhash, Bool.not_true, if_false, forall_const, Bool.false_eq_true]
    cases sub.getprop FIT_ALGO_PROP with
    | none => simp
    | some algo =>
      cases sub.getprop FIT_VALUE_PROP with
      | none => simp
      | some fitValue =>
        cases hcalc : calculateHash h data (ofBytes algo) with
        | none => simp [hcalc]
        | some value =>
          by_cases heq : value = fitValue
          · simp [hcalc, heq]
          · simp [hcalc, heq]
  · simp [HashNodeOk, hhash]

theorem fitImageCheckHashes_node (h : HashFns) (image : FdtNode) (pre post : Fdt) (hfuel : image.count < fuel + 1) :
    (¬ ImageOk h image ∧ fitImageCheckHashes h fuel (pre ++ image.flatten ++ post) pre.length = some 0) ∨
      (ImageOk h image ∧ fitImageCheckHashes h fuel (pre ++ image.flatten ++ post) pre.length = some 1) := by
  rw [fitImageCheckHashes, fitImageGetData, fdtGetprop_node]
  cases hdata : image.getprop FIT_DATA_PROP with
  | none => simp [ImageOk, hdata]
  | some data =>
    have hok : ImageOk h image ↔ ∀ sub ∈ image.subs.children, HashNodeOk h data sub := by
      simp [ImageOk, hdata]
    rw [hok]
    cases image with
    | mk name props subs =>
      have hacts (sub : FdtNode) : Acts (fun fit noffset => some (checkHashNode h data fit noffset, fit)) (fun n => ¬ HashNodeOk h data n)
          (fun n n' => n' = n ∧ HashNodeOk h data n) sub := by
        intro pre post
        rcases checkHashNode_node h data pre post sub with ⟨hbad, hret⟩ | ⟨hgood, hret⟩
        · exact Or.inl ⟨1, pre ++ sub.flatten ++ post, by decide, hbad, by simp only [hret]⟩
        · exact Or.inr ⟨sub, ⟨rfl, hgood⟩, by simp only [hret]⟩
      have hcount : ∀ n n' : FdtNode, n' = n ∧ HashNodeOk h data n → n'.count = n.count := by
        rintro n n' ⟨rfl, -⟩
        rfl
      rcases forSubnodes_node hcount name props subs (fun sub _ => hacts sub) (Nat.lt_of_succ_lt_succ hfuel) pre post with
        ⟨ret, fdt, hret, ⟨sub, hsub, hbad⟩, hwalk⟩ | ⟨subs', hrel, hwalk⟩
      · left
        refine ⟨fun hall => hbad (hall sub hsub), ?_⟩
        simp only [hwalk, hret, if_false]
      · right
        have hall : ∀ n ∈ subs'.children, HashNodeOk h data n := by
          refine subsRel_children ?_ hrel
          rintro n n' ⟨rfl, hgood⟩
          exact hgood
        rw [subsRel_eq (fun n n' hn => hn.1) hrel] at hall
        refine ⟨hall, ?_⟩
        simp only [hwalk, if_true]

theorem fitAllImageCheckHashes_node (h : HashFns) (root : CString) (props : List (Option (CString × List UInt8))) (before rest : FdtSubs)
    (images : FdtNode) (hother : ∀ n ∈ before.children, ¬ fdtNodenameEq n.name FIT_IMAGES_NAME)
    (hname : fdtNodenameEq images.name FIT_IMAGES_NAME)
    (hfuel : (FdtNode.mk root props (append before (.cons images rest))).count < fuel)
    (hok : ∀ image ∈ images.subs.children, ImageOk h image) :
    fitAllImageCheckHashes h fuel (FdtNode.mk root props (append before (.cons images rest))).flatten = some 1 := by
  rw [FdtNode.count, count_append, FdtSubs.count] at hfuel
  have himages := count_node images
  have hfdt : (FdtNode.mk root props (append before (.cons images rest))).flatten =
      .beginNode root :: (props.map propTag ++ before.flatten) ++ images.flatten ++ (rest.flatten ++ [.endNode]) := by
    simp [FdtNode.flatten, flatten_append, FdtSubs.flatten]
  rw [fitAllImageCheckHashes, fdtPathOffset_some root props before rest images FIT_IMAGES_NAME hother hname (by omega), hfdt]
  cases images with
  | mk name imageProps subs =>
    rw [FdtNode.subs] at himages
    have hsubs : subs.count < fuel := by omega
    have hacts : ∀ image ∈ subs.children,
        Acts (fun fit noffset => (fitImageCheckHashes h fuel fit noffset).map fun ok => (if ok = 0 then 1 else 0, fit)) (fun _ => False)
          (fun n n' => n' = n) image := by
      intro image himage pre post
      have hle : image.count < fuel + 1 :=
        Nat.lt_succ_of_le ((count_le_of_mem_children subs himage).trans (Nat.le_of_lt hsubs))
      rcases fitImageCheckHashes_node h image pre post hle with ⟨hbad, -⟩ | ⟨-, hret⟩
      · exact absurd (hok image himage) hbad
      · exact Or.inr ⟨image, rfl, by simp only [hret, Option.map_some]; rfl⟩
    rcases forSubnodes_node (fun n n' hn => congrArg FdtNode.count hn) name imageProps subs hacts hsubs
      (.beginNode root :: (props.map propTag ++ before.flatten)) (rest.flatten ++ [.endNode]) with
      ⟨_, _, _, ⟨_, _, hbad⟩, _⟩ | ⟨subs', _, hwalk⟩
    · exact hbad.elim
    · simp only [hwalk, if_true]

/-! ## The setter -/

/-- What the setter leaves in the place of a subnode: as many nodes, and a good hash if it is a hash node. -/
theorem acts_setHashNode (h : HashFns) (room : FdtRoom) (data : List UInt8) (sub : FdtNode) :
    Acts (fun fit noffset => some (setHashNode h room data fit noffset)) (fun _ => True)
      (fun n n' => n'.count = n.count ∧ HashNodeOk h data n') sub := by
  intro pre post
  simp only [setHashNode, fitImageHashGetAlgo, fdtGetName_node, fdtGetprop_node]
  by_cases hhash : isHashNode (some sub.name)
  · simp only [hhash, Bool.not_true, if_false, Bool.false_eq_true]
    cases halgo : sub.getprop FIT_ALGO_PROP with
    | none => exact Or.inl ⟨-1, _, by decide, trivial, rfl⟩
    | some algo =>
      simp only [Option.map_some]
      cases hcalc : calculateHash h data (ofBytes algo) with
      | none => exact Or.inl ⟨-1, _, by decide, trivial, rfl⟩
      | some value =>
        rcases fdtSetprop_node room pre post sub FIT_VALUE_PROP value with hset | hset
        · exact Or.inl ⟨-1, pre ++ sub.flatten ++ post, by decide, trivial, by simp only [hset]⟩
        · right
          refine ⟨setprop FIT_VALUE_PROP value sub, ⟨?_, fun _ => ⟨algo, value, ?_, ?_, calculateHash_iff.1 hcalc⟩⟩, by simp only [hset]⟩
          · cases sub with
            | mk name props subs => rfl
          · rw [getprop_setprop, if_neg (by decide), halgo]
          · rw [getprop_setprop, if_pos rfl]
  · refine Or.inr ⟨sub, ⟨rfl, fun hn => absurd hn hhash⟩, ?_⟩
    simp [hhash]

theorem acts_fitImageSetHashes (h : HashFns) (room : FdtRoom) (image : FdtNode) (hfuel : image.count < fuel + 1) :
    Acts (fitImageSetHashes h room fuel) (fun _ => True) (fun n n' => n'.count = n.count ∧ ImageOk h n') image := by
  intro pre post
  rw [fitImageSetHashes, fitImageGetData, fdtGetprop_node]
  cases hdata : image.getprop FIT_DATA_PROP with
  | none => exact Or.inl ⟨-1, _, by decide, trivial, rfl⟩
  | some data =>
    cases image with
    | mk name props subs =>
      rcases forSubnodes_node (fun n n' hn => hn.1) name props subs (fun sub _ => acts_setHashNode h room data sub)
        (Nat.lt_of_succ_lt_succ hfuel) pre post with ⟨ret, fdt, hret, -, hwalk⟩ | ⟨subs', hrel, hwalk⟩
      · exact Or.inl ⟨ret, fdt, hret, trivial, hwalk⟩
      · refine Or.inr ⟨.mk name props subs', ⟨?_, data, hdata, subsRel_children (fun n n' hn => hn.2) hrel⟩, hwalk⟩
        rw [FdtNode.count, FdtNode.count, subsRel_count (fun n n' hn => hn.1) hrel]

theorem fitSetHashes_root (h : HashFns) (room : FdtRoom) (root : FdtNode) (hfuel : root.count < fuel) :
    ∃ ret fit, fitSetHashes h room fuel root.flatten = some (ret, fit) ∧ (ret = 0 → fitAllImageCheckHashes h fuel fit = some 1) := by
  cases root with
  | mk name props subs =>
    rcases first_child (fun n => fdtNodenameEq n.name FIT_IMAGES_NAME) subs with hnone | ⟨before, images, rest, rfl, hother, hname⟩
    · refine ⟨-1, (FdtNode.mk name props subs).flatten, ?_, by simp⟩
      rw [fitSetHashes, fdtPathOffset_none name props subs FIT_IMAGES_NAME hnone hfuel]
    · have hcount := hfuel
      rw [FdtNode.count, count_append, FdtSubs.count] at hcount
      have hfdt (images : FdtNode) : (FdtNode.mk name props (append before (.cons images rest))).flatten =
          .beginNode name :: (props.map propTag ++ before.flatten) ++ images.flatten ++ (rest.flatten ++ [.endNode]) := by
        simp [FdtNode.flatten, flatten_append, FdtSubs.flatten]
      rw [fitSetHashes, fdtPathOffset_some name props before rest images FIT_IMAGES_NAME hother hname (by omega), hfdt]
      cases images with
      | mk imagesName imagesProps imageSubs =>
        rw [FdtNode.count] at hcount
        have hsubs : imageSubs.count < fuel := by omega
        have hacts : ∀ image ∈ imageSubs.children, Acts (fitImageSetHashes h room fuel) (fun _ => True)
            (fun n n' => n'.count = n.count ∧ ImageOk h n') image := by
          intro image himage
          have hle := count_le_of_mem_children imageSubs himage
          exact acts_fitImageSetHashes h room image (Nat.lt_succ_of_le (hle.trans (Nat.le_of_lt hsubs)))
        rcases forSubnodes_node (fun n n' hn => hn.1) imagesName imagesProps imageSubs hacts hsubs
          (.beginNode name :: (props.map propTag ++ before.flatten)) (rest.flatten ++ [.endNode]) with
          ⟨ret, fdt, hret, -, hwalk⟩ | ⟨subs', hrel, hwalk⟩
        · exact ⟨ret, fdt, hwalk, fun h0 => absurd h0 hret⟩
        · refine ⟨0, _, hwalk, fun _ => ?_⟩
          have hcount' := subsRel_count (fun n n' hn => hn.1) hrel
          have hok : ∀ image ∈ subs'.children, ImageOk h image := subsRel_children (fun n n' hn => hn.2) hrel
          rw [← hfdt]
          refine fitAllImageCheckHashes_node h name props before rest (.mk imagesName imagesProps subs') hother hname ?_ hok
          rw [FdtNode.count, count_append, FdtSubs.count, FdtNode.count]
          omega

end FitSealed

open FitSealed

/-- For every tree, if `fit_set_hashes` returns 0 then `fit_all_image_check_hashes` returns 1 for the tree it leaves; and
`fit_image_check_hashes` at any node of any blob returns 1 if the node has data and each of its hash nodes names an algorithm and holds
the hash of the data, and 0 if not. -/
theorem fit_hashes_sealed (h : HashFns) : (∀ (room : FdtRoom) (root : FdtNode) (fuel : Nat), root.count < fuel →
      ∃ ret fit, fitSetHashes h room fuel root.flatten = some (ret, fit) ∧ (ret = 0 → fitAllImageCheckHashes h fuel fit = some 1)) ∧
    (∀ (image : FdtNode) (pre post : Fdt) (fuel : Nat), image.count < fuel →
      ∃ ret, fitImageCheckHashes h fuel (pre ++ image.flatten ++ post) pre.length = some ret ∧ (ret = 1 ↔ ImageOk h image) ∧
        (ret = 0 ∨ ret = 1)) := by
  refine ⟨fun room root fuel hfuel => fitSetHashes_root h room root hfuel, ?_⟩
  intro image pre post fuel hfuel
  rcases fitImageCheckHashes_node h image pre post (Nat.lt_succ_of_lt hfuel) with ⟨hbad, hret⟩ | ⟨hgood, hret⟩
  · exact ⟨0, hret, by simp [hbad], Or.inl rfl⟩
  · exact ⟨1, hret, by simp [hgood], Or.inr rfl⟩

/-- An image with a subnode `hash` for a CRC. -/
def sealedImage : FdtNode :=
  .mk (ofBytes [0x6b]) [some (FIT_DATA_PROP, [1, 2])] (.cons (.mk (ofBytes FIT_HASH_NODENAME) [some (FIT_ALGO_PROP, algoCrc32)] .nil) .nil)

/-- A tree with the image. -/
def sealedRoot : FdtNode :=
  .mk (ofBytes []) [] (.cons (.mk (ofBytes FIT_IMAGES_NAME) [] (.cons sealedImage .nil)) .nil)

/-- The tree is sealed and accepted; without its value the image is bad. -/
theorem fit_hashes_sealed_crc32 : ∃ h : HashFns, ∃ room : FdtRoom,
    (∃ fit, fitSetHashes h room 5 sealedRoot.flatten = some (0, fit) ∧ fitAllImageCheckHashes h 5 fit = some 1) ∧
    ∃ ret, fitImageCheckHashes h 3 ([] ++ sealedImage.flatten ++ []) 0 = some ret ∧ (ret = 1 ↔ ImageOk h sealedImage) ∧ ret = 0 := by
  refine ⟨⟨fun _ => Vector.replicate 20 0, fun _ => Vector.replicate 16 0⟩, fun _ _ _ _ => true, ?_, ?_⟩
  · obtain ⟨ret, fit, hset, hcheck⟩ := (fit_hashes_sealed _).1 _ sealedRoot 5 (by decide)
    have hret : ret = 0 := by
      have hrun : (fitSetHashes ⟨fun _ => Vector.replicate 20 0, fun _ => Vector.replicate 16 0⟩ (fun _ _ _ _ => true) 5
          sealedRoot.flatten).map Prod.fst = some 0 := by
        decide
      rw [hset] at hrun
      simpa using hrun
    subst hret
    exact ⟨fit, hset, hcheck rfl⟩
  · obtain ⟨ret, hcheck, hiff, -⟩ := (fit_hashes_sealed _).2 sealedImage [] [] 3 (by decide)
    refine ⟨ret, hcheck, hiff, ?_⟩
    have hrun : fitImageCheckHashes ⟨fun _ => Vector.replicate 20 0, fun _ => Vector.replicate 16 0⟩ 3
        ([] ++ sealedImage.flatten ++ []) 0 = some 0 := by
      decide
    exact Option.some.inj (hcheck.symm.trans hrun)

end UBoot

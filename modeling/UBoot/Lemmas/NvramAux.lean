import Mathlib.Algebra.BigOperators.Group.List.Basic
import UBoot.Lib.Chained
import UBoot.Nvram

/-!
# What a commit of the NVRAM keeps

The writer puts out the tuples of the chains one after the other, except those of a chain from the first that does not fit on.
The parser of `nvram_rehash` sets exactly the tuples that were written, if no name has an equals sign, and then the
SDRAM parameters that are not set.
-/

namespace UBoot

open Lib List Option

/-- Every tuple is in the bucket of its name, and a bucket has a name once. -/
def Nvram.WF (s : Nvram) : Prop := Chained NvramTuple.name nvramBucket s.hash

/-- All tuples, in the order the writer meets them. -/
def Nvram.tuples (s : Nvram) : List NvramTuple := chainEntries s.hash nvramBuckets

namespace NvramAux

variable {s : Nvram}
variable {ts : List NvramTuple} {t : NvramTuple} {malloc : Nat → Bool} {k : CString} {room : Nat} {cs : List (List NvramTuple)}
    {get : CString → Option CString}

/-! ## The operations on the table -/

theorem nvramBucket_lt (name : CString) : nvramBucket name < nvramBuckets := Nat.mod_lt _ (by decide)

theorem wf_empty : Nvram.empty.WF := chained_empty

theorem get_empty (k : CString) : nvramGet Nvram.empty k = none := rfl

theorem get_set (name value : CString) (s : Nvram) (k : CString) :
    nvramGet (nvramSet true name value s).2 k = if k = name then some value else nvramGet s k := by
  show (chainLookup NvramTuple.name nvramBucket (chainPut NvramTuple.name nvramBucket s.hash ⟨name, value⟩) k).map _ = _
  rw [chainLookup_put]
  split <;> rfl

theorem wf_set (hs : s.WF) (name value : CString) : (nvramSet true name value s).2.WF := Chained.put hs ⟨name, value⟩

theorem get_unset (hs : s.WF) (name k : CString) : nvramGet (nvramUnset name s) k = if k = name then none else nvramGet s k := by
  show (chainLookup NvramTuple.name nvramBucket (chainRemove NvramTuple.name nvramBucket s.hash name) k).map _ = _
  rw [chainLookup_remove hs]
  split <;> rfl

theorem wf_unset (hs : s.WF) (name : CString) : (nvramUnset name s).WF := Chained.remove hs name

theorem get_eq_some_iff (hs : s.WF) (k v : CString) : nvramGet s k = some v ↔ ⟨k, v⟩ ∈ s.tuples := by
  show (chainLookup NvramTuple.name nvramBucket s.hash k).map _ = _ ↔ _
  rw [map_eq_some_iff]
  constructor
  · rintro ⟨t, ht, rfl⟩
    obtain ⟨hmem, rfl⟩ := (Chained.lookup_eq_some_iff hs nvramBucket_lt k t).1 ht
    exact hmem
  · intro hmem
    exact ⟨⟨k, v⟩, (Chained.lookup_eq_some_iff hs nvramBucket_lt k _).2 ⟨hmem, rfl⟩, rfl⟩

theorem nodup_tuples (hs : s.WF) : (s.tuples.map NvramTuple.name).Nodup := Chained.nodup_entries hs nvramBuckets

/-- Set a list of tuples. -/
def setAll (ts : List NvramTuple) (s : Nvram) : Nvram := ts.foldl (fun s t => (nvramSet true t.name t.value s).2) s

theorem setAll_hash (ts : List NvramTuple) (s : Nvram) : (setAll ts s).hash = ts.foldl (chainPut NvramTuple.name nvramBucket) s.hash := by
  induction ts generalizing s with
  | nil => rfl
  | cons t ts ih => exact ih _

theorem get_setAll_iff (hn : (ts.map NvramTuple.name).Nodup) (k v : CString) :
    nvramGet (setAll ts Nvram.empty) k = some v ↔ ⟨k, v⟩ ∈ ts := by
  show (chainLookup NvramTuple.name nvramBucket (setAll ts Nvram.empty).hash k).map _ = _ ↔ _
  rw [setAll_hash, map_eq_some_iff]
  constructor
  · rintro ⟨t, ht, rfl⟩
    obtain ⟨hmem, rfl⟩ := (lookup_foldl_put_iff hn k t).1 ht
    exact hmem
  · intro hmem
    exact ⟨⟨k, v⟩, (lookup_foldl_put_iff hn k _).2 ⟨hmem, rfl⟩, rfl⟩

/-! ## The parser -/

theorem length_text (t : NvramTuple) : t.text.length = t.name.bytes.length + 1 + t.value.bytes.length + 1 := by
  simp only [NvramTuple.text, length_append, length_cons, length_nil]
  omega

theorem drop_past (xs ys : List UInt8) (c : UInt8) : (xs ++ c :: ys).drop (xs.length + 1) = ys := by
  rw [append_cons, drop_left']
  simp

/-- The parser reads a tuple back whose name has no equals sign. -/
theorem rehashLoop_text (ht : chEquals ∉ t.name.bytes) (malloc : Nat → Bool) (fuel n : Nat) (rest : List UInt8)
    (s : Nvram) : rehashLoop malloc (fuel + 1) n (t.text ++ rest) s =
      rehashLoop malloc fuel (n + 1) rest (nvramSet (malloc n) t.name t.value s).2 := by
  have h0 : (0 : UInt8) ≠ chEquals := by decide
  have hbody : t.text ++ rest = (t.name.bytes ++ chEquals :: t.value.bytes) ++ 0 :: rest := by simp [NvramTuple.text]
  have hnul : ∀ c ∈ t.name.bytes ++ chEquals :: t.value.bytes, (c != 0) = true := by
    intro c hc
    rw [bne_iff_ne]
    rintro rfl
    simp [t.name.nul_free, t.value.nul_free, h0] at hc
  have hstr : (t.text ++ rest).takeWhile (· != 0) = t.name.bytes ++ chEquals :: t.value.bytes := by
    rw [hbody, takeWhile_append_of_pos hnul]
    simp
  have hname : (t.name.bytes ++ chEquals :: t.value.bytes).takeWhile (· != chEquals) = t.name.bytes := by
    have hpos : ∀ c ∈ t.name.bytes, (c != chEquals) = true := fun c hc => bne_iff_ne.2 fun h => ht (h ▸ hc)
    rw [takeWhile_append_of_pos hpos]
    simp
  have hrest : (t.text ++ rest).drop ((t.name.bytes ++ chEquals :: t.value.bytes).length + 1) = rest := by
    rw [hbody, drop_past]
  rw [rehashLoop]
  simp only [hstr, hname, drop_past, hrest, CString.ofBytes_bytes]
  rw [if_neg (by simp)]

theorem rehashLoop_texts (hm : ∀ n, malloc n = true)
    (hts : ∀ t ∈ ts, chEquals ∉ t.name.bytes) (fuel n : Nat) (hfuel : ts.length < fuel) (rest : List UInt8) (s : Nvram) :
    rehashLoop malloc fuel n (ts.flatMap NvramTuple.text ++ 0 :: rest) s = (n + ts.length, setAll ts s) := by
  induction ts generalizing fuel n s with
  | nil =>
    obtain ⟨fuel, rfl⟩ : ∃ f, fuel = f + 1 := ⟨fuel - 1, by omega⟩
    rw [rehashLoop]
    simp [setAll]
  | cons t ts ih =>
    obtain ⟨fuel, rfl⟩ : ∃ f, fuel = f + 1 := ⟨fuel - 1, by omega⟩
    rw [length_cons] at hfuel ⊢
    rw [flatMap_cons, append_assoc, rehashLoop_text (hts t mem_cons_self), hm n,
      ih (fun t ht => hts t (mem_cons_of_mem _ ht)) _ _ (by omega), Nat.add_right_comm, ← Nat.add_assoc]
    rfl

/-- The parser never sets a name with an equals sign. -/
theorem rehashLoop_names (malloc : Nat → Bool) (fuel n : Nat) (rest : List UInt8) (s : Nvram)
    (hk : chEquals ∈ k.bytes) (hs : nvramGet s k = none) : nvramGet (rehashLoop malloc fuel n rest s).2 k = none := by
  induction fuel generalizing n rest s with
  | zero => exact hs
  | succ fuel ih =>
    rw [rehashLoop]
    simp only
    split
    · exact hs
    · refine ih _ _ _ ?_
      cases malloc n with
      | false => exact hs
      | true =>
        rw [get_set, if_neg]
        · exact hs
        · rintro rfl
          have hsub : chEquals ∈ (rest.takeWhile (· != 0)).takeWhile (· != chEquals) :=
            (List.takeWhile_prefix _).subset hk
          simpa using mem_takeWhile_imp hsub

theorem wf_rehashLoop (malloc : Nat → Bool) (fuel n : Nat) (rest : List UInt8) (hs : s.WF) : (rehashLoop malloc fuel n rest s).2.WF := by
  induction fuel generalizing n rest s with
  | zero => exact hs
  | succ fuel ih =>
    rw [rehashLoop]
    simp only
    split
    · exact hs
    · refine ih _ _ ?_
      cases malloc n with
      | false => exact hs
      | true => exact wf_set hs _ _

/-- The parameters that are not set are set, and nothing else. -/
theorem get_setParams (hm : ∀ n, malloc n = true) (ts : List NvramTuple) (n : Nat) (s : Nvram)
    (k : CString) : nvramGet (setParams malloc ts n s) k = (nvramGet s k).or ((ts.find? (·.isOf k)).map (·.value)) := by
  induction ts generalizing n s with
  | nil => simp [setParams]
  | cons t ts ih =>
    rw [setParams]
    by_cases hk : t.name = k
    · subst hk
      have hfind : (t :: ts).find? (·.isOf t.name) = some t := by simp [NvramTuple.isOf]
      rw [hfind]
      split
      · rename_i hsome
        obtain ⟨v, hv⟩ := isSome_iff_exists.1 hsome
        rw [ih, hv]
        rfl
      · rename_i hsome
        rw [ih, hm, get_set, if_pos rfl, not_isSome_iff_eq_none.1 hsome]
        rfl
    · have hfind : (t :: ts).find? (·.isOf k) = ts.find? (·.isOf k) := by simp [NvramTuple.isOf, hk]
      rw [hfind]
      split
      · exact ih _ _
      · rw [ih, hm, get_set, if_neg (Ne.symm hk)]

theorem wf_setParams (hm : ∀ n, malloc n = true) (ts : List NvramTuple) (n : Nat) (hs : s.WF) :
    (setParams malloc ts n s).WF := by
  induction ts generalizing n s with
  | nil => exact hs
  | cons t ts ih =>
    rw [setParams]
    split
    · exact ih n hs
    · rw [hm]
      exact ih _ (wf_set hs _ _)

/-! ## The writer -/

/-- The bytes the writer may use: the image without its header and the two NULs at the end. -/
def nvramRoom : Nat := CONFIG_NVRAM_SIZE - NVRAM_HEADER_SIZE - 2

/-- The bytes a list of tuples takes. -/
def textLength (ts : List NvramTuple) : Nat := (ts.flatMap NvramTuple.text).length

/-- The tuples of a chain the writer puts out: those before the first that does not fit. -/
def keptChain : Nat → List NvramTuple → List NvramTuple
  | _, [] => []
  | room, t :: ts => if t.text.length ≤ room then t :: keptChain (room - t.text.length) ts else []

/-- The tuples the writer puts out. -/
def kept : Nat → List (List NvramTuple) → List NvramTuple
  | _, [] => []
  | room, c :: cs => keptChain room c ++ kept (room - textLength (keptChain room c)) cs

theorem textLength_cons (t : NvramTuple) (ts : List NvramTuple) : textLength (t :: ts) = t.text.length + textLength ts := by
  rw [textLength, flatMap_cons, length_append]
  rfl

theorem textLength_append (ts us : List NvramTuple) : textLength (ts ++ us) = textLength ts + textLength us := by
  rw [textLength, flatMap_append, length_append]
  rfl

theorem textLength_mem_le (h : t ∈ ts) : t.text.length ≤ textLength ts := by
  obtain ⟨xs, ys, rfl⟩ := append_of_mem h
  rw [textLength_append, textLength_cons]
  omega

theorem keptChain_of_isPrefix (room : Nat) (ts : List NvramTuple) : keptChain room ts <+: ts := by
  induction ts generalizing room with
  | nil => exact prefix_refl _
  | cons t ts ih =>
    rw [keptChain]
    split
    · exact (prefix_cons_inj t).2 (ih _)
    · exact nil_prefix

theorem textLength_keptChain_le (room : Nat) (ts : List NvramTuple) : textLength (keptChain room ts) ≤ room := by
  induction ts generalizing room with
  | nil => exact Nat.zero_le _
  | cons t ts ih =>
    rw [keptChain]
    split
    · have := ih (room - t.text.length)
      rw [textLength_cons]
      omega
    · exact Nat.zero_le _

theorem textLength_kept_le (room : Nat) (cs : List (List NvramTuple)) : textLength (kept room cs) ≤ room := by
  induction cs generalizing room with
  | nil => exact Nat.zero_le _
  | cons c cs ih =>
    have h1 := textLength_keptChain_le room c
    have h2 := ih (room - textLength (keptChain room c))
    rw [kept, textLength_append]
    omega

theorem kept_sublist (room : Nat) (cs : List (List NvramTuple)) : (kept room cs).Sublist cs.flatten := by
  induction cs generalizing room with
  | nil => exact List.Sublist.refl _
  | cons c cs ih =>
    rw [kept, flatten_cons]
    exact (keptChain_of_isPrefix room c).sublist.append (ih _)

theorem keptChain_eq_self (h : textLength ts ≤ room) : keptChain room ts = ts := by
  induction ts generalizing room with
  | nil => rfl
  | cons t ts ih =>
    rw [textLength_cons] at h
    rw [keptChain, if_pos (by omega), ih (by omega)]

theorem kept_eq_flatten (h : textLength cs.flatten ≤ room) : kept room cs = cs.flatten := by
  induction cs generalizing room with
  | nil => rfl
  | cons c cs ih =>
    rw [flatten_cons, textLength_append] at h
    rw [kept, keptChain_eq_self (by omega), ih (by omega), flatten_cons]

theorem commitChain_eq (ts : List NvramTuple) {data : List UInt8} (h : data.length ≤ nvramRoom) :
    commitChain ts data = data ++ (keptChain (nvramRoom - data.length) ts).flatMap NvramTuple.text := by
  induction ts generalizing data with
  | nil => simp [commitChain, keptChain]
  | cons t ts ih =>
    have hlen := length_text t
    have hroom : CONFIG_NVRAM_SIZE - 2 = NVRAM_HEADER_SIZE + nvramRoom := by decide
    rw [commitChain, keptChain, hroom]
    by_cases hfit : t.text.length ≤ nvramRoom - data.length
    · rw [if_neg (by omega), if_pos hfit, ih (by rw [length_append]; omega), flatMap_cons, length_append, append_assoc, Nat.sub_sub]
    · rw [if_pos (by omega), if_neg hfit]
      simp

theorem commitTuples_eq (s : Nvram) : commitTuples s = (kept nvramRoom ((List.range nvramBuckets).map s.hash)).flatMap NvramTuple.text := by
  have key (is : List Nat) (data : List UInt8) (h : data.length ≤ nvramRoom) : is.foldl (fun data i => commitChain (s.hash i) data) data =
        data ++ (kept (nvramRoom - data.length) (is.map s.hash)).flatMap NvramTuple.text := by
    induction is generalizing data with
    | nil => simp [kept]
    | cons i is ih =>
      have hle := textLength_keptChain_le (nvramRoom - data.length) (s.hash i)
      rw [foldl_cons, commitChain_eq _ h, ih _ (by rw [length_append]; unfold textLength at hle; omega), map_cons,
        kept, flatMap_append, length_append, append_assoc, ← Nat.sub_sub]
      rfl
  exact key _ [] (Nat.zero_le _)

/-- The tuples a commit writes. -/
def written (s : Nvram) : List NvramTuple := kept nvramRoom ((List.range nvramBuckets).map s.hash)

theorem written_sublist (s : Nvram) : (written s).Sublist s.tuples := kept_sublist _ _

theorem written_eq_tuples (h : textLength s.tuples ≤ nvramRoom) : written s = s.tuples := kept_eq_flatten h

/-! ## A commit -/

/-- The text of an SDRAM parameter as the header of a commit has it. -/
def sdramText (get : CString → Option CString) (k : CString) : Option CString :=
  ((sdramParams (commitHeader get)).find? (·.isOf k)).map (·.value)

theorem sdramText_other (h : k ∉ [sdramInitName, sdramConfigName, sdramRefreshName, sdramNcdlName]) : sdramText get k = none := by
  rw [sdramText, map_eq_none_iff, find?_eq_none]
  intro t ht hk
  have hmem : t.name ∈ (sdramParams (commitHeader get)).map NvramTuple.name := mem_map.2 ⟨t, ht, rfl⟩
  have hname : t.name = k := by simpa [NvramTuple.isOf] using hk
  exact h (hname ▸ hmem)

theorem find?_sdramParams_names {header : NvramHeader}
    (h : (sdramParams header).find? (·.isOf k) = some t) : chEquals ∉ k.bytes := by
  have hname : t.name = k := by simpa [NvramTuple.isOf] using find?_some h
  have hnames : ∀ n ∈ [sdramInitName, sdramConfigName, sdramRefreshName, sdramNcdlName], chEquals ∉ n.bytes := by decide
  have hmem : t.name ∈ (sdramParams header).map NvramTuple.name := mem_map.2 ⟨t, mem_of_find?_eq_some h, rfl⟩
  exact hnames k (hname ▸ hmem)

theorem sdramText_names {v : CString} (h : sdramText get k = some v) : chEquals ∉ k.bytes := by
  obtain ⟨t, ht, -⟩ := map_eq_some_iff.1 h
  exact find?_sdramParams_names ht

theorem sdramParams_crc (header : NvramHeader) (len : Nat) (crc : UInt8) :
    sdramParams { header with len := len, crcVerInit := header.crcVerInit ||| crc.toNat } = sdramParams header := by
  have hcrc : crc.toNat >>> 16 = 0 := by
    have := crc.toNat_lt
    rw [Nat.shiftRight_eq_div_pow]
    omega
  simp only [sdramParams, Nat.shiftRight_or_distrib, hcrc, Nat.or_zero]

theorem endNuls_zeroes (xs : List UInt8) {m : Nat} (hm : 2 ≤ m) :
    endNuls (xs ++ List.replicate m 0) = xs ++ List.replicate m 0 := by
  obtain ⟨m, rfl⟩ : ∃ j, m = j + 2 := ⟨m - 2, by omega⟩
  have hlen : (xs ++ List.replicate (m + 2) (0 : UInt8)).length - 2 = xs.length + m := by
    rw [length_append, length_replicate]
    omega
  rw [endNuls, hlen, take_append, take_of_length_le (by omega), take_replicate, append_assoc]
  congr 1
  have hmin : min (xs.length + m - xs.length) (m + 2) = m := by omega
  rw [hmin, replicate_add]
  rfl

theorem length_commitTuples_le (s : Nvram) : (commitTuples s).length ≤ nvramRoom := by
  rw [commitTuples_eq]
  exact textLength_kept_le nvramRoom _

theorem commitImage_data (hndcrc8 : List UInt8 → UInt8 → UInt8) (s : Nvram) :
    ∃ m, 2 ≤ m ∧ (commitImage hndcrc8 s).data = (written s).flatMap NvramTuple.text ++ List.replicate m 0 := by
  have hle := length_commitTuples_le s
  have hroom : CONFIG_NVRAM_SIZE - NVRAM_HEADER_SIZE = nvramRoom + 2 := by decide
  refine ⟨CONFIG_NVRAM_SIZE - NVRAM_HEADER_SIZE - (commitTuples s).length, by omega, ?_⟩
  show commitTuples s ++ _ = _
  rw [commitTuples_eq]
  rfl

theorem endNuls_commitImage (hndcrc8 : List UInt8 → UInt8 → UInt8) (s : Nvram) :
    endNuls (commitImage hndcrc8 s).data = (commitImage hndcrc8 s).data := by
  obtain ⟨m, hm, hdata⟩ := commitImage_data hndcrc8 s
  rw [hdata, endNuls_zeroes _ hm]

theorem nvramRegenerate_image (hndcrc8 : List UInt8 → UInt8 → UInt8) (malloc : Nat → Bool) (s : Nvram) :
    (nvramRegenerate hndcrc8 malloc s).1 = commitImage hndcrc8 s := by
  unfold nvramRegenerate nvramRehash
  simp only [endNuls_commitImage]

/-- A commit rebuilds the table from the tuples it wrote and the SDRAM parameters. -/
theorem nvramRegenerate_eq (hndcrc8 : List UInt8 → UInt8 → UInt8) (hm : ∀ n, malloc n = true) (s : Nvram)
    (hnames : ∀ t ∈ written s, chEquals ∉ t.name.bytes) :
    nvramRegenerate hndcrc8 malloc s = (commitImage hndcrc8 s,
      setParams malloc (sdramParams (commitHeader (nvramGet s))) (written s).length (setAll (written s) Nvram.empty)) := by
  obtain ⟨m, hm2, hdata⟩ := commitImage_data hndcrc8 s
  have hparams : sdramParams (commitImage hndcrc8 s).header = sdramParams (commitHeader (nvramGet s)) :=
    sdramParams_crc _ _ _
  have hfuel : (written s).length < (commitImage hndcrc8 s).data.length := by
    have hlen (ts : List NvramTuple) : ts.length ≤ (ts.flatMap NvramTuple.text).length := by
      induction ts with
      | nil => exact Nat.le_refl _
      | cons t ts ih =>
        rw [flatMap_cons, length_append, length_cons, length_text]
        omega
    have := hlen (written s)
    rw [hdata, length_append, length_replicate]
    omega
  obtain ⟨m, rfl⟩ : ∃ j, m = j + 1 := ⟨m - 1, by omega⟩
  have hloop : rehashLoop malloc (commitImage hndcrc8 s).data.length 0 (commitImage hndcrc8 s).data Nvram.empty =
      ((written s).length, setAll (written s) Nvram.empty) := by
    generalize (commitImage hndcrc8 s).data.length = fuel at hfuel ⊢
    rw [hdata, replicate_succ, rehashLoop_texts hm hnames _ _ hfuel, Nat.zero_add]
  unfold nvramRegenerate nvramRehash
  simp only [endNuls_commitImage, hloop, hparams]

theorem get_regenerate (hndcrc8 : List UInt8 → UInt8 → UInt8) (hm : ∀ n, malloc n = true) (s : Nvram)
    (hnames : ∀ t ∈ written s, chEquals ∉ t.name.bytes) (k : CString) :
    nvramGet (nvramRegenerate hndcrc8 malloc s).2 k = (nvramGet (setAll (written s) Nvram.empty) k).or (sdramText (nvramGet s) k) := by
  rw [nvramRegenerate_eq hndcrc8 hm s hnames, get_setParams hm]
  rfl

theorem wf_rehash (hm : ∀ n, malloc n = true) (image : NvramImage) : (nvramRehash malloc image).2.WF := by
  unfold nvramRehash
  exact wf_setParams hm _ _ (wf_rehashLoop malloc _ _ _ wf_empty)

theorem wf_regenerate (hndcrc8 : List UInt8 → UInt8 → UInt8) (hm : ∀ n, malloc n = true) (s : Nvram) :
    (nvramRegenerate hndcrc8 malloc s).2.WF := by
  unfold nvramRegenerate
  exact wf_rehash hm _

theorem get_regenerate_equals (hndcrc8 : List UInt8 → UInt8 → UInt8) (hm : ∀ n, malloc n = true)
    (s : Nvram) (hk : chEquals ∈ k.bytes) : nvramGet (nvramRegenerate hndcrc8 malloc s).2 k = none := by
  unfold nvramRegenerate nvramRehash
  simp only
  rw [get_setParams hm, rehashLoop_names malloc _ _ _ _ hk (get_empty k), none_or, map_eq_none_iff]
  apply eq_none_iff_forall_ne_some.2
  intro t ht
  exact find?_sdramParams_names ht hk

theorem get_regenerate_tuple (hndcrc8 : List UInt8 → UInt8 → UInt8) (hm : ∀ n, malloc n = true) (hs : s.WF) (hnames : ∀ t ∈ s.tuples, chEquals ∉ t.name.bytes) (ht : t ∈ s.tuples) :
    nvramGet (nvramRegenerate hndcrc8 malloc s).2 t.name =
      if t ∈ written s then some t.value else sdramText (nvramGet s) t.name := by
  have hsub := written_sublist s
  have hnd : ((written s).map NvramTuple.name).Nodup := (nodup_tuples hs).sublist (hsub.map _)
  rw [get_regenerate hndcrc8 hm s fun t ht => hnames t (hsub.subset ht)]
  split
  · rename_i hw
    rw [(get_setAll_iff hnd t.name t.value).2 hw]
    rfl
  · rename_i hw
    have hnone : nvramGet (setAll (written s) Nvram.empty) t.name = none := by
      apply eq_none_iff_forall_ne_some.2
      intro v hv
      have hmem := (get_setAll_iff hnd t.name v).1 hv
      have he := inj_on_of_nodup_map (nodup_tuples hs) (hsub.subset hmem) ht rfl
      exact hw (he ▸ hmem)
    rw [hnone, none_or]

end NvramAux
end UBoot

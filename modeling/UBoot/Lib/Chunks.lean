import Mathlib.Algebra.Ring.Nat

/-!
# Loops that go piece by piece

A loop deals with a length in pieces of one size, the last of which may be shorter, and counts what is done in some number of bits. Where
the size of a piece divides the range of the counter, the loop comes to an end just if the counter does not come round
(`chunkLoop_ok_iff`). `Chunks` is a run that goes right, without a counter: what a piece keeps and shows, a run keeps and shows of each
piece (`Chunks.invariant`), and there is a run when no piece goes wrong (`Chunks.exists`).
-/

namespace Lib

variable {σ ε : Type*}

/-- A loop over `len` in pieces of `piece`, with a counter of `w` bits. -/
def chunkLoop (w piece len : Nat) (body : Nat → σ → Except ε σ) : Nat → Nat → σ → Option (Except ε σ)
  | 0, _, _ => none
  | fuel + 1, d, s =>
    if d < len then
      match body (if len - d < piece then len - d else piece) s with
      | .error e => some (.error e)
      | .ok s => chunkLoop w piece len body fuel ((d + piece) % 2 ^ w) s
    else some (.ok s)

/-- The pieces from `d` on, one after the other. -/
inductive Chunks (piece len : Nat) (body : Nat → σ → Except ε σ) : Nat → σ → σ → Prop
  | done {d : Nat} {s : σ} (h : len ≤ d) : Chunks piece len body d s s
  | step {d : Nat} {s s' s'' : σ} (h : d < len) (hbody : body (min (len - d) piece) s = .ok s')
    (hrest : Chunks piece len body (d + piece) s' s'') : Chunks piece len body d s s''

variable {w piece len d fuel : Nat} {body : Nat → σ → Except ε σ} {s s' s'' : σ}

theorem piece_eq_min (len d piece : Nat) : (if len - d < piece then len - d else piece) = min (len - d) piece := by
  split <;> omega

theorem Chunks.deterministic (h : Chunks piece len body d s s') (h' : Chunks piece len body d s s'') : s' = s'' := by
  induction h with
  | done hle =>
    cases h' with
    | done _ => rfl
    | step hlt _ _ => omega
  | step hlt hbody _ ih =>
    cases h' with
    | done hle => omega
    | step _ hbody' hrest' =>
      obtain rfl := Except.ok.inj (hbody.symm.trans hbody')
      exact ih hrest'

theorem eq_of_dvd_of_lt {p d d' : Nat} (hd : p ∣ d) (hd' : p ∣ d') (hle : d ≤ d') (hlt : d' < d + p) : d' = d := by
  have h := Nat.eq_zero_of_dvd_of_lt (Nat.dvd_sub hd' hd) (by omega)
  omega

/-- What each piece keeps holds when all of them are done, and so does what each one shows. -/
theorem Chunks.invariant {P : Nat → σ → Prop} {Q : Nat → Prop} (h : Chunks piece len body d s s') (hd : piece ∣ d) (h0 : P d s)
    (hstep : ∀ d s s', d < len → P d s → body (min (len - d) piece) s = .ok s' → Q d ∧ P (d + piece) s') :
    (∀ d', piece ∣ d' → d ≤ d' → d' < len → Q d') ∧ ∃ d', len ≤ d' ∧ P d' s' := by
  induction h with
  | done hle => exact ⟨fun d' _ hle' hlt => absurd hlt (by omega), _, hle, h0⟩
  | step hlt hbody _ ih =>
    obtain ⟨hq, h1⟩ := hstep _ _ _ hlt h0 hbody
    obtain ⟨hall, hend⟩ := ih (Nat.dvd_add hd (Nat.dvd_refl piece)) h1
    refine ⟨fun d' hdvd hle' hlt' => ?_, hend⟩
    rcases Nat.lt_or_ge d' (_ + piece) with hnext | hnext
    · rwa [eq_of_dvd_of_lt hd hdvd hle' hnext]
    · exact hall d' hdvd hnext hlt'

/-- There is a run when no piece goes wrong. -/
theorem Chunks.exists {P : Nat → σ → Prop} (hpiece : 0 < piece) (h0 : P d s)
    (hstep : ∀ d s, d < len → P d s → ∃ s', body (min (len - d) piece) s = .ok s' ∧ P (d + piece) s') :
    ∃ s', Chunks piece len body d s s' := by
  induction hn : len - d using Nat.strongRecOn generalizing d s with
  | ind n ih =>
    rcases Nat.lt_or_ge d len with hlt | hle
    · obtain ⟨s₁, hbody, h1⟩ := hstep d s hlt h0
      obtain ⟨s', hrest⟩ := ih (len - (d + piece)) (by omega) h1 rfl
      exact ⟨s', .step hlt hbody hrest⟩
    · exact ⟨s, .done hle⟩

/-- Where the counter does not come round, the loop goes from piece to piece. -/
theorem Chunks.of_chunkLoop (hfit : len + piece ≤ 2 ^ w) (h : chunkLoop w piece len body fuel d s = some (.ok s')) :
    Chunks piece len body d s s' := by
  induction fuel generalizing d s with
  | zero => cases h
  | succ fuel ih =>
    unfold chunkLoop at h
    split at h
    · next hlt =>
      rw [piece_eq_min] at h
      split at h
      · cases h
      · next s₁ hbody =>
        rw [Nat.mod_eq_of_lt (by omega)] at h
        exact .step hlt hbody (ih h)
    · next hle =>
      obtain rfl := Except.ok.inj (Option.some.inj h)
      exact .done (Nat.le_of_not_lt hle)

theorem Chunks.chunkLoop (hfit : len + piece ≤ 2 ^ w) (h : Chunks piece len body d s s') :
    ∃ fuel, chunkLoop w piece len body fuel d s = some (.ok s') := by
  induction h with
  | done hle => exact ⟨1, if_neg (Nat.not_lt.2 hle)⟩
  | step hlt hbody _ ih =>
    obtain ⟨fuel, hfuel⟩ := ih
    refine ⟨fuel + 1, ?_⟩
    rw [Lib.chunkLoop, if_pos hlt, piece_eq_min, hbody, Nat.mod_eq_of_lt (by omega)]
    exact hfuel

/-- A counter that comes round never gets to the end. -/
theorem chunkLoop_of_wrap (hdvd : piece ∣ 2 ^ w) (hwrap : 2 ^ w < len + piece) (hd : piece ∣ d) (hlt : d < 2 ^ w) :
    chunkLoop w piece len body fuel d s ≠ some (.ok s') := by
  induction fuel generalizing d s with
  | zero => exact nofun
  | succ fuel ih =>
    have hdlen : d < len := by
      have := Nat.le_of_dvd (by omega) (Nat.dvd_sub hdvd hd)
      omega
    rw [chunkLoop, if_pos hdlen]
    split
    · exact nofun
    · exact ih ((Nat.dvd_mod_iff hdvd).2 (Nat.dvd_add hd (Nat.dvd_refl piece))) (Nat.mod_lt _ (Nat.two_pow_pos w))

/-- A loop ends well just if its counter does not come round and no piece goes wrong. -/
theorem chunkLoop_ok_iff (len : Nat) (body : Nat → σ → Except ε σ) (s s' : σ) (hdvd : piece ∣ 2 ^ w) :
    (∃ fuel, chunkLoop w piece len body fuel 0 s = some (.ok s')) ↔ len + piece ≤ 2 ^ w ∧ Chunks piece len body 0 s s' := by
  constructor
  · rintro ⟨fuel, h⟩
    have hfit : len + piece ≤ 2 ^ w := by
      by_contra hwrap
      exact chunkLoop_of_wrap hdvd (Nat.lt_of_not_le hwrap) (Nat.dvd_zero piece) (Nat.two_pow_pos w) h
    exact ⟨hfit, .of_chunkLoop hfit h⟩
  · rintro ⟨hfit, h⟩
    exact h.chunkLoop hfit

/-- What goes wrong is a piece. -/
theorem exists_of_chunkLoop_error {e : ε} (h : chunkLoop w piece len body fuel d s = some (.error e)) : ∃ n s, body n s = .error e := by
  induction fuel generalizing d s with
  | zero => cases h
  | succ fuel ih =>
    unfold chunkLoop at h
    split at h
    · split at h
      · next e' hbody =>
        obtain rfl := Except.error.inj (Option.some.inj h)
        exact ⟨_, _, hbody⟩
      · exact ih h
    · cases h

end Lib

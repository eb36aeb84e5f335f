import Mathlib

/-!
# Writing text into a bounded buffer

A printer that writes a text position by position into a buffer of which only the positions
below `cap` are kept, stopping early when it reaches `cap`. `Emits cap f f' i i' t` says that
the printer, started at position `i` on the memory `f`, left the memory `f'` and stopped at
`i'`, having written the text `t` as far as the buffer allows: the positions below `i` are
untouched, the positions from `i` to `min i' cap` hold the beginning of `t`, and a printer that
stopped before `cap` wrote all of `t`.

The relation composes (`Emits.trans`), also when the text that follows depends on the position
where the first one ends (`Emits.trans_at`), and from the start of the buffer it determines
what a reader that scans the kept positions up to a terminator sees (`Emits.takeWhile_range`).
Nothing is said about the positions from `i'` on, so writing a terminator there keeps it
(`Emits.update_of_le`).
-/

namespace BoundedWrite

variable {α : Type*} {cap : ℕ}

/-- The text `t`, written from `i` on `f` into the positions below `cap`, gives `f'` and stops
at `i'`. -/
structure Emits (cap : ℕ) (f f' : ℕ → α) (i i' : ℕ) (t : List α) : Prop where
  /-- The printer does not move back. -/
  le : i ≤ i'
  /-- The positions before the start are untouched. -/
  frame : ∀ k < i, f' k = f k
  /-- The kept positions from `i` to `i'` hold the beginning of `t`. -/
  content : (List.range' i (min i' cap - i)).map f' = t.take (min i' cap - i)
  /-- Stopping before `cap` means the whole text was written. -/
  complete : i' < cap → t.length = i' - i

/-- Two memories that agree below `i + n` read the same on `range' i n`. -/
theorem map_range'_congr {f g : ℕ → α} {i n : ℕ} (h : ∀ k < i + n, f k = g k) :
    (List.range' i n).map f = (List.range' i n).map g :=
  List.map_congr_left fun k hk ↦ h k (List.mem_range'_1.mp hk).2

/-- Where no kept position lies from `i` on, the content condition holds of every text. -/
theorem map_range'_eq_take_of_min_le {f : ℕ → α} {i i' : ℕ} (h : min i' cap ≤ i) (t : List α) :
    (List.range' i (min i' cap - i)).map f = t.take (min i' cap - i) := by
  rw [Nat.sub_eq_zero_of_le h]
  rfl

namespace Emits

variable {f f' f₁ f₂ : ℕ → α} {i i' j k : ℕ} {t u : List α}

/-- Nothing written. -/
theorem refl (f : ℕ → α) (i : ℕ) : Emits cap f f i i [] where
  le := le_rfl
  frame _ _ := rfl
  content := map_range'_eq_take_of_min_le (Nat.min_le_left i cap) []
  complete _ := by simp

/-- A printer that starts at `cap` or beyond writes nothing that is kept, whatever its text. -/
theorem of_cap_le (f : ℕ → α) (hi : cap ≤ i) (t : List α) : Emits cap f f i i t where
  le := le_rfl
  frame _ _ := rfl
  content := map_range'_eq_take_of_min_le (Nat.min_le_left i cap) t
  complete h := absurd h (by omega)

/-- From `cap` on, the text is not seen. -/
theorem text_of_cap_le (h : Emits cap f f' i i' t) (hi : cap ≤ i) (u : List α) :
    Emits cap f f' i i' u where
  le := h.le
  frame := h.frame
  content := map_range'_eq_take_of_min_le ((Nat.min_le_right i' cap).trans hi) u
  complete h' := absurd h' (by have := h.le; omega)

/-- One character written at `i`, kept or not. -/
theorem write (f : ℕ → α) (i : ℕ) (c : α) :
    Emits cap f (Function.update f i c) i (i + 1) [c] where
  le := Nat.le_succ i
  frame _ hk := Function.update_of_ne (Nat.ne_of_lt hk) _ _
  content := by
    by_cases hi : i < cap
    · rw [show min (i + 1) cap - i = 1 by omega, List.range'_succ, List.range'_zero,
        List.map_singleton, Function.update_self]
      rfl
    · exact map_range'_eq_take_of_min_le (by omega) [c]
  complete _ := by simp

/-- The kept part of the text is at least as long as the positions written. -/
theorem length_le (h : Emits cap f f' i i' t) : min i' cap - i ≤ t.length := by
  have hlen := congrArg List.length h.content
  rw [List.length_map, List.length_range', List.length_take] at hlen
  omega

/-- A write at or after the stop position changes nothing the relation speaks of. -/
theorem update_of_le (h : Emits cap f f' i i' t) (hk : i' ≤ k) (c : α) :
    Emits cap f (Function.update f' k c) i i' t where
  le := h.le
  frame k' hk' := by rw [Function.update_of_ne (by have := h.le; omega), h.frame k' hk']
  content := by
    have := h.le
    rw [← h.content]
    exact map_range'_congr fun k' hk' ↦ Function.update_of_ne (by omega) _ _
  complete := h.complete

/-- **Composition.** The second text follows the first where the first stopped. -/
theorem trans (h₁ : Emits cap f f₁ i j t) (h₂ : Emits cap f₁ f₂ j k u) :
    Emits cap f f₂ i k (t ++ u) where
  le := h₁.le.trans h₂.le
  frame k' hk' := by rw [h₂.frame k' (by have := h₁.le; omega), h₁.frame k' hk']
  content := by
    have hij := h₁.le
    have hjk := h₂.le
    by_cases hj : j < cap
    · -- the first text is complete and fills `[i, j)`; the second continues from `j`
      have ht : t.length = j - i := h₁.complete hj
      have hsplit : min k cap - i = (j - i) + (min k cap - j) := by omega
      have hfirst : (List.range' i (j - i)).map f₂ = t := by
        rw [map_range'_congr fun k' hk' ↦ h₂.frame k' (by omega)]
        have hc := h₁.content
        rw [show min j cap - i = t.length by omega, List.take_length] at hc
        rwa [ht] at hc
      rw [hsplit, ← List.range'_append_1, List.map_append, show i + (j - i) = j by omega, hfirst,
        h₂.content, ← ht, List.take_length_add_append]
    · -- the first text already reached `cap`: nothing of the second is kept
      have hlen := h₁.length_le
      rw [show min k cap - i = min j cap - i by omega,
        List.take_append_of_le_length hlen, ← h₁.content]
      exact map_range'_congr fun k' hk' ↦ h₂.frame k' (by omega)
  complete hk := by
    have ht := h₁.complete (by have := h₂.le; omega)
    have hu := h₂.complete hk
    have := h₁.le
    have := h₂.le
    rw [List.length_append, ht, hu]
    omega

/-- **Composition at the end position.** A text that depends on the position the first one
ends at, as a printer that tracks its column does, follows it there; when the first text is cut
at `cap`, the second is not seen, so its position does not matter. -/
theorem trans_at (h₁ : Emits cap f f₁ i j t) {g : ℕ → List α} (h₂ : Emits cap f₁ f₂ j k (g j)) :
    Emits cap f f₂ i k (t ++ g (i + t.length)) := by
  by_cases hj : j < cap
  · rw [h₁.complete hj, show i + (j - i) = j by have := h₁.le; omega]
    exact h₁.trans h₂
  · exact h₁.trans (h₂.text_of_cap_le (by omega) _)

/-- **What a reader sees.** A text written from the start of the buffer and followed by a
terminator `z` it does not contain reads back, up to the first `z` among the kept positions, as
the text cut at `cap`. -/
theorem takeWhile_range [DecidableEq α] (h : Emits cap f f' 0 i' t) (z : α) (hz : z ∉ t) :
    ((List.range cap).map (Function.update f' i' z)).takeWhile (· ≠ z) = t.take cap := by
  have hne : ∀ a ∈ t.take cap, decide (a ≠ z) = true := fun a ha ↦
    decide_eq_true fun hae ↦ hz (hae ▸ List.mem_of_mem_take ha)
  rw [List.range_eq_range']
  by_cases hi : i' < cap
  · -- the terminator is kept, right after the whole text
    have ht : t.length = i' := h.complete hi
    have hc := h.content
    rw [show min i' cap - 0 = t.length by omega, List.take_length, ht] at hc
    have hpre : (List.range' 0 i').map (Function.update f' i' z) = (List.range' 0 i').map f' :=
      map_range'_congr fun k hk ↦ Function.update_of_ne (by omega) _ _
    rw [show cap = i' + (cap - i' - 1 + 1) by omega, ← List.range'_append_1, List.map_append,
      Nat.zero_add, List.range'_succ, List.map_cons, Function.update_self, hpre, hc,
      List.takeWhile_append_of_pos fun a ha ↦ hne a (by rwa [List.take_of_length_le (by omega)]),
      List.takeWhile_cons_of_neg (by simp), List.append_nil,
      List.take_of_length_le (by omega)]
  · -- every kept position holds text
    have hkept : (List.range' 0 cap).map (Function.update f' i' z) =
        (List.range' 0 cap).map f' :=
      map_range'_congr fun k hk ↦ Function.update_of_ne (by omega) _ _
    rw [hkept]
    have hc := h.content
    rw [show min i' cap - 0 = cap by omega] at hc
    rw [hc, List.takeWhile_eq_self_iff]
    exact hne

end Emits

end BoundedWrite

import Mathlib

/-!
# Ring buffers as windows of an append-only sequence

A ring of `N` slots whose `n`-th write goes to slot `n % N` keeps the last `N` values written
into it. This file states that as a refinement. The slots *hold* the list `xs` of values pushed
so far when every position `k` of the window `[xs.length - N, xs.length)` sits in slot `k % N`;
a push preserves it, and the read pattern a consumer uses, the window read in push order,
becomes a statement about `xs` alone.

Slots are compared with the pushed values through a `view`, so that a slot may carry more than
the abstract value it stands for (bytes past a terminator, say) and still hold it.

## Counting above a threshold

Facts about selections by a threshold sit at the end. In a window of a sequence along which
a predicate is up-closed, the number of elements satisfying it never decreases as the sequence
grows. Among distinct naturals that are all at least `m`, at most `k` lie below `m + k`. Together:
a threshold `m + k` fixed from the windows of several sequences, with `m` below all their values,
still finds all but `k` of those values' count in the windows of the grown sequences
(`length_sub_le_countP_window`).
-/

namespace RingWindow

variable {α β : Type*}

/-! ## Windows -/

/-- The last `N` elements of `xs`: what a ring of `N` slots still holds after the pushes `xs`. -/
def window (N : ℕ) (xs : List α) : List α := xs.drop (xs.length - N)

@[simp] theorem length_window (N : ℕ) (xs : List α) : (window N xs).length = min xs.length N := by
  rw [window, List.length_drop]
  omega

@[simp] theorem window_nil (N : ℕ) : window N ([] : List α) = [] := by
  simp [window]

/-- A ring of at least one slot that was pushed to is not empty. -/
theorem window_ne_nil {N : ℕ} (hN : 0 < N) {xs : List α} (h : xs ≠ []) : window N xs ≠ [] := by
  rw [← List.length_pos_iff, length_window]
  have := List.length_pos_iff.mpr h
  omega

theorem window_of_length_le {N : ℕ} {xs : List α} (h : xs.length ≤ N) : window N xs = xs := by
  rw [window, Nat.sub_eq_zero_of_le h, List.drop_zero]

/-- Pushing onto a ring that is not yet full extends the window. -/
theorem window_append_singleton_of_lt {N : ℕ} {xs : List α} (x : α) (h : xs.length < N) :
    window N (xs ++ [x]) = window N xs ++ [x] := by
  rw [window_of_length_le (by simp; omega), window_of_length_le h.le]

/-- Pushing onto a full ring drops the oldest element of the window. -/
theorem window_append_singleton_of_le {N : ℕ} {xs : List α} (x : α) (hN : 0 < N)
    (h : N ≤ xs.length) : window N (xs ++ [x]) = (window N xs).tail ++ [x] := by
  rw [window, window, List.tail_drop, List.length_append, List.length_singleton,
    show xs.length + 1 - N = xs.length - N + 1 by omega,
    List.drop_append_of_le_length (by omega)]

theorem mem_of_mem_window {N : ℕ} {xs : List α} {x : α} (h : x ∈ window N xs) : x ∈ xs :=
  List.mem_of_mem_drop h

theorem window_sublist (N : ℕ) (xs : List α) : List.Sublist (window N xs) xs :=
  List.drop_sublist _ _

theorem window_map (N : ℕ) (f : α → β) (xs : List α) :
    window N (xs.map f) = (window N xs).map f := by
  rw [window, window, List.length_map, List.map_drop]

/-! ## Slots holding a window -/

section Slots

variable {N : ℕ} [NeZero N]

/-- The ring `slots` holds the pushes `xs`, seen through `view`: position `k` of the window sits
in slot `k % N`. -/
def Holds (view : β → α) (slots : Fin N → β) (xs : List α) : Prop :=
  ∀ k (hk : k < xs.length), xs.length - N ≤ k → view (slots (Fin.ofNat N k)) = xs[k]

/-- Write the `n`-th push into slot `n % N`. -/
def push (slots : Fin N → β) (n : ℕ) (b : β) : Fin N → β :=
  Function.update slots (Fin.ofNat N n) b

theorem holds_nil (view : β → α) (slots : Fin N → β) : Holds view slots [] :=
  fun _ hk ↦ absurd hk (Nat.not_lt_zero _)

/-- Two positions less than `N` apart fall into different slots. -/
theorem ofNat_ne_of_lt {a b : ℕ} (hab : a < b) (hlt : b < a + N) :
    Fin.ofNat N a ≠ Fin.ofNat N b := by
  intro h
  have hmod : a % N = b % N := by simpa [Fin.ext_iff] using h
  have hdvd : N ∣ b - a := Nat.dvd_of_mod_eq_zero (Nat.sub_mod_eq_zero_of_mod_eq hmod.symm)
  have hpos : 0 < b - a := Nat.sub_pos_of_lt hab
  have := Nat.le_of_dvd hpos hdvd
  omega

/-- **The push step.** Writing the next value into slot `xs.length % N` makes the ring hold the
extended sequence: the one slot it overwrites held the position that leaves the window. -/
theorem holds_push {view : β → α} {slots : Fin N → β} {xs : List α} {b : β} {x : α}
    (h : Holds view slots xs) (hb : view b = x) :
    Holds view (push slots xs.length b) (xs ++ [x]) := by
  intro k hk hge
  simp only [List.length_append, List.length_singleton] at hk hge
  rcases Nat.lt_or_ge k xs.length with hlt | hge'
  · have hne : Fin.ofNat N k ≠ Fin.ofNat N xs.length := ofNat_ne_of_lt hlt (by omega)
    rw [push, Function.update_of_ne hne, List.getElem_append_left hlt]
    exact h k hlt (by omega)
  · obtain rfl : k = xs.length := by omega
    rw [push, Function.update_self, List.getElem_append_right (Nat.le_refl _)]
    simpa using hb

/-- Reading positions `a, a + 1, …` up to the last push, for a start `a` inside the window, gives
the pushes from `a` on. -/
theorem map_range'_eq_drop {view : β → α} {slots : Fin N → β} {xs : List α}
    (h : Holds view slots xs) {a : ℕ} (ha : xs.length - N ≤ a) :
    (List.range' a (xs.length - a)).map (fun k ↦ view (slots (Fin.ofNat N k))) = xs.drop a := by
  apply List.ext_getElem (by simp)
  intro i hi _
  simp only [List.length_map, List.length_range'] at hi
  rw [List.getElem_map, List.getElem_range', List.getElem_drop, Nat.one_mul]
  exact h (a + i) (by omega) (by omega)

/-- The window read in push order, starting at its first position. -/
theorem map_window_positions {view : β → α} {slots : Fin N → β} {xs : List α}
    (h : Holds view slots xs) :
    (List.range' (xs.length - min xs.length N) (min xs.length N)).map
        (fun k ↦ view (slots (Fin.ofNat N k))) = window N xs := by
  have hread := map_range'_eq_drop h (a := xs.length - min xs.length N) (by omega)
  rw [show xs.length - (xs.length - min xs.length N) = min xs.length N by omega] at hread
  rw [hread, window]
  congr 1
  omega

end Slots

/-! ## Counting above a threshold -/

/-- One push never lowers the number of window elements satisfying a predicate that is
up-closed along the sequence: the element that leaves the window is older than the one that
enters. -/
theorem countP_window_le_append_singleton {N : ℕ} {p : α → Bool} {xs : List α} {y : α}
    (hp : (xs ++ [y]).Pairwise fun a b ↦ p a → p b) :
    (window N xs).countP p ≤ (window N (xs ++ [y])).countP p := by
  rcases Nat.eq_zero_or_pos N with rfl | hN
  · simp [window]
  rcases Nat.lt_or_ge xs.length N with hlt | hge
  · rw [window_append_singleton_of_lt y hlt, List.countP_append]
    omega
  · rw [window_append_singleton_of_le y hN hge, List.countP_append]
    cases hw : window N xs with
    | nil => simp
    | cons a rest =>
      -- the departing `a` precedes `y`, so `p a` forces `p y`
      have ha : a ∈ xs := mem_of_mem_window (by rw [hw]; exact List.mem_cons_self)
      have hay : p a → p y := (List.pairwise_append.mp hp).2.2 a ha y (List.mem_singleton_self y)
      simp only [List.tail_cons, List.countP_cons]
      by_cases hpa : p a <;> simp_all

/-- **Windows of a growing sequence.** Along a sequence on which `p` is up-closed, the number of
window elements satisfying `p` never decreases as the sequence grows. -/
theorem countP_window_le_append {N : ℕ} {p : α → Bool} {xs ys : List α}
    (hp : (xs ++ ys).Pairwise fun a b ↦ p a → p b) :
    (window N xs).countP p ≤ (window N (xs ++ ys)).countP p := by
  induction ys generalizing xs with
  | nil => simp
  | cons y ys ih =>
    have hp' : ((xs ++ [y]) ++ ys).Pairwise fun a b ↦ p a → p b := by simpa using hp
    calc (window N xs).countP p
        ≤ (window N (xs ++ [y])).countP p :=
          countP_window_le_append_singleton (List.pairwise_append.mp hp').1
      _ ≤ (window N (xs ++ [y] ++ ys)).countP p := ih hp'
      _ = (window N (xs ++ y :: ys)).countP p := by simp

/-- Distinct naturals inside `[m, m + k)` number at most `k`. -/
theorem length_le_of_nodup_of_mem_Ico {l : List ℕ} {m k : ℕ} (hl : l.Nodup)
    (h : ∀ x ∈ l, m ≤ x ∧ x < m + k) : l.length ≤ k := by
  classical
  have hsub : l.toFinset ⊆ Finset.Ico m (m + k) := fun x hx ↦
    Finset.mem_Ico.mpr (h x (List.mem_toFinset.mp hx))
  calc l.length = l.toFinset.card := (List.toFinset_card_of_nodup hl).symm
    _ ≤ (Finset.Ico m (m + k)).card := Finset.card_le_card hsub
    _ = k := by simp

/-- **Threshold selection.** Among distinct naturals that are all at least `m`, at most `k` lie
below `m + k`. -/
theorem countP_lt_le_of_nodup {l : List ℕ} {m k : ℕ} (hl : l.Nodup) (h : ∀ x ∈ l, m ≤ x) :
    l.countP (fun x ↦ decide (x < m + k)) ≤ k := by
  rw [List.countP_eq_length_filter]
  apply length_le_of_nodup_of_mem_Ico (hl.filter _)
  intro x hx
  rw [List.mem_filter] at hx
  exact ⟨h x hx.1, by simpa using hx.2⟩

/-- **A threshold from earlier windows.** Let each sequence `q i` grow strictly and extend `p i`,
with no value in two of them, and let `m` be at most every value of the windows of the `p i`,
`T` values in all. The windows of the `q i` then hold at least `T - k` values at or above
`m + k`. -/
theorem length_sub_le_countP_window {ι : Type*} {N m k : ℕ} (is : List ι) {p q : ι → List ℕ}
    (hpre : ∀ i ∈ is, p i <+: q i) (hinc : ∀ i ∈ is, (q i).Pairwise (· < ·))
    (hnd : (is.flatMap q).Nodup) (hm : ∀ i ∈ is, ∀ x ∈ window N (p i), m ≤ x) :
    (is.flatMap fun i ↦ window N (p i)).length - k ≤
      (is.flatMap fun i ↦ window N (q i)).countP fun x ↦ m + k ≤ x := by
  set l := is.flatMap fun i ↦ window N (p i)
  have hnd' : l.Nodup := hnd.sublist (List.Sublist.flatMap_right is fun i hi ↦
    (window_sublist N (p i)).trans (hpre i hi).sublist)
  -- at most `k` of the earlier windows' values lie below `m + k` ...
  have hbelow : l.countP (fun x ↦ decide (x < m + k)) ≤ k := by
    apply countP_lt_le_of_nodup hnd'
    intro x hx
    obtain ⟨i, hi, hx⟩ := List.mem_flatMap.mp hx
    exact hm i hi x hx
  have hsplit := l.length_eq_countP_add_countP fun x ↦ decide (m + k ≤ x)
  simp only [decide_eq_true_eq, not_le] at hsplit
  -- ... and a window that grows keeps every value at or above it that it had in count
  have hgrow : l.countP (fun x ↦ m + k ≤ x) ≤
      (is.flatMap fun i ↦ window N (q i)).countP fun x ↦ m + k ≤ x := by
    rw [List.countP_flatMap, List.countP_flatMap]
    apply List.sum_le_sum
    intro i hi
    obtain ⟨ys, hys⟩ := hpre i hi
    simp only [Function.comp_apply, ← hys]
    apply countP_window_le_append
    rw [hys]
    exact (hinc i hi).imp fun hab ha ↦ by simp only [decide_eq_true_eq] at ha ⊢; omega
  omega

end RingWindow

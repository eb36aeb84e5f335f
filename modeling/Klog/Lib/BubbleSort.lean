import Mathlib

/-!
# Bubble sort as an index loop that can fault

The two nested loops of the textbook in-place bubble sort,

```text
for (i = 0; i < outer; i++)
  for (j = 0; j < inner(i); j++)
    if (key(a[j + 1]) < key(a[j])) swap a[j], a[j + 1];
```

over a list, where reading a position outside the list is a *fault* (`none`). The bounds are
parameters: a caller whose bounds come out of machine arithmetic states them as it computes
them, and compares them with the usual `n - 1` and `n - i - 1` afterwards.

## Results

With the bounds `n - 1` and `n - i - 1` and `n` at most the length, the loop returns a list whose
first `n` elements are a sorted permutation of the input's first `n` and whose rest is untouched
(`loop_sorts`), and a loop whose passes stay inside a prefix reads nothing after it
(`loop_append`). A pass whose bound reaches the end of the list faults, and so does every loop
whose first pass does (`pass_eq_none`, `loop_eq_none`). With distinct keys the sorted result is
the only one (`eq_of_perm_of_sorted`).

## Proof

A pass over all of a nonempty list computes `bubbleFrom`, a structural recursion that carries the
larger element of each compared pair to the right; the index loop is related to it once, by
shifting the indices of a pass past a fixed head. The outer loop then keeps a list of the shape
`A ++ S ++ rest` with `S` sorted and every element of `A` at most every element of `S`
(`Stage`); a pass over `A` moves a maximum of `A` to the front of `S`.
-/

namespace BubbleSort

variable {α β : Type*} [LinearOrder β] (key : α → β)

/-! ## The loops -/

/-- The body of the inner loop at index `j`: compare positions `j` and `j + 1` and swap them when
they are out of order. Reading either position outside the list faults. -/
def swapStep (l : List α) (j : ℕ) : Option (List α) := do
  let a ← l[j]?
  let b ← l[j + 1]?
  if key b < key a then pure ((l.set j b).set (j + 1) a) else pure l

/-- The inner loop `for (j = 0; j < bound; j++)`. -/
def pass (bound : ℕ) (l : List α) : Option (List α) :=
  (List.range bound).foldlM (swapStep key) l

/-- The outer loop `for (i = 0; i < outer; i++)`, running a pass with bound `inner i`. -/
def loop (outer : ℕ) (inner : ℕ → ℕ) (l : List α) : Option (List α) :=
  (List.range outer).foldlM (fun l i ↦ pass key (inner i) l) l

/-- One pass over `c :: rest` as a recursion: the larger of the carried element and the next one
is carried on, the smaller is left behind. -/
def bubbleFrom (c : α) : List α → List α
  | [] => [c]
  | b :: rest => if key b < key c then b :: bubbleFrom c rest else c :: bubbleFrom b rest

/-! ## The inner loop -/

variable {key}

theorem swapStep_length {l l' : List α} {j : ℕ} (h : swapStep key l j = some l') :
    l'.length = l.length := by
  simp only [swapStep, Option.bind_eq_bind] at h
  cases ha : l[j]? <;> cases hb : l[j + 1]? <;> simp only [ha, hb, Option.bind_none,
    Option.bind_some, reduceCtorEq] at h
  split_ifs at h <;> (cases h; simp)

/-- Comparing past a fixed head is comparing in the tail, one index lower. -/
theorem swapStep_cons_succ (x : α) (l : List α) (j : ℕ) :
    swapStep key (x :: l) (j + 1) = (swapStep key l j).map (x :: ·) := by
  simp only [swapStep, List.getElem?_cons_succ, Option.bind_eq_bind]
  cases ha : l[j]? <;> cases hb : l[j + 1]? <;> simp only [Option.bind_none, Option.bind_some,
    Option.map_none]
  split_ifs <;> simp [List.set_cons_succ]

/-- A comparison inside a prefix does not see what follows it. -/
theorem swapStep_append {A : List α} (T : List α) {j : ℕ} (hj : j + 1 < A.length) :
    swapStep key (A ++ T) j = (swapStep key A j).map (· ++ T) := by
  simp only [swapStep, List.getElem?_append_left (by omega : j < A.length),
    List.getElem?_append_left hj, List.getElem?_eq_getElem (by omega : j < A.length),
    List.getElem?_eq_getElem hj, Option.bind_eq_bind, Option.bind_some]
  split_ifs
  · rw [List.set_append_left _ _ (by omega : j < A.length),
      List.set_append_left _ _ (by rw [List.length_set]; exact hj)]
    rfl
  · rfl

theorem foldlM_swapStep_shift (x : α) (n : ℕ) :
    ∀ (s : ℕ) (l : List α), (List.range' (s + 1) n).foldlM (swapStep key) (x :: l) =
      ((List.range' s n).foldlM (swapStep key) l).map (x :: ·) := by
  induction n with
  | zero => intro s l; rfl
  | succ n ih =>
    intro s l
    rw [List.range'_succ, List.range'_succ, List.foldlM_cons, List.foldlM_cons,
      swapStep_cons_succ]
    cases swapStep key l s with
    | none => rfl
    | some l' => exact ih (s + 1) l'

/-- **One pass is `bubbleFrom`.** A pass over all adjacent pairs of `c :: rest` succeeds and
carries a largest element to the end. -/
theorem pass_eq_bubbleFrom (c : α) (rest : List α) :
    pass key rest.length (c :: rest) = some (bubbleFrom key c rest) := by
  induction rest generalizing c with
  | nil => rfl
  | cons b rest ih =>
    rw [pass, List.length_cons, List.range_eq_range', List.range'_succ, List.foldlM_cons]
    simp only [swapStep, List.getElem?_cons_zero, List.getElem?_cons_succ, Option.bind_eq_bind,
      Option.bind_some, bubbleFrom]
    have hih : ∀ x y, (List.range' 1 rest.length).foldlM (swapStep key) (x :: y :: rest) =
        some (x :: bubbleFrom key y rest) := by
      intro x y
      rw [foldlM_swapStep_shift, ← List.range_eq_range', ← pass, ih]
      rfl
    split_ifs <;> simp [hih]

theorem foldlM_swapStep_length {l l' : List α} :
    ∀ {is : List ℕ}, is.foldlM (swapStep key) l = some l' → l'.length = l.length
  | [], h => by cases h; rfl
  | j :: is, h => by
    rw [List.foldlM_cons] at h
    cases hs : swapStep key l j with
    | none => simp [hs] at h
    | some l₁ =>
      simp only [hs, Option.bind_eq_bind, Option.bind_some] at h
      rw [foldlM_swapStep_length h, swapStep_length hs]

/-- A pass over indices inside a prefix leaves what follows the prefix alone. -/
theorem foldlM_swapStep_append {A : List α} (T : List α) :
    ∀ {is : List ℕ}, (∀ j ∈ is, j + 1 < A.length) →
      is.foldlM (swapStep key) (A ++ T) = (is.foldlM (swapStep key) A).map (· ++ T)
  | [], _ => rfl
  | j :: is, his => by
    rw [List.foldlM_cons, List.foldlM_cons, swapStep_append T (his j List.mem_cons_self)]
    cases hs : swapStep key A j with
    | none => rfl
    | some A' =>
      have hlen : A'.length = A.length := swapStep_length hs
      simp only [Option.map_some, Option.bind_eq_bind, Option.bind_some]
      exact foldlM_swapStep_append T fun i hi ↦ hlen ▸ his i (List.mem_cons_of_mem j hi)

theorem pass_append {A : List α} (T : List α) {b : ℕ} (hb : b < A.length) :
    pass key b (A ++ T) = (pass key b A).map (· ++ T) :=
  foldlM_swapStep_append T fun j hj ↦ by rw [List.mem_range] at hj; omega

/-! ## What one pass does -/

theorem bubbleFrom_perm (c : α) (rest : List α) : (bubbleFrom key c rest).Perm (c :: rest) := by
  induction rest generalizing c with
  | nil => rfl
  | cons b rest ih =>
    rw [bubbleFrom]
    split_ifs
    · exact ((ih c).cons b).trans (List.Perm.swap c b rest)
    · exact (ih b).cons c

variable (key) in
/-- A pass ends on an element at least as large as every element it passed over. -/
theorem bubbleFrom_eq_append (c : α) (rest : List α) :
    ∃ init m, bubbleFrom key c rest = init ++ [m] ∧ ∀ x ∈ c :: rest, key x ≤ key m := by
  induction rest generalizing c with
  | nil => exact ⟨[], c, rfl, by simp⟩
  | cons b rest ih =>
    rw [bubbleFrom]
    split_ifs with hbc
    · obtain ⟨init, m, heq, hle⟩ := ih c
      refine ⟨b :: init, m, by rw [heq]; rfl, fun x hx ↦ ?_⟩
      rcases List.mem_cons.mp hx with rfl | hx
      · exact hle x List.mem_cons_self
      rcases List.mem_cons.mp hx with rfl | hx
      · exact hbc.le.trans (hle c List.mem_cons_self)
      · exact hle x (List.mem_cons_of_mem c hx)
    · obtain ⟨init, m, heq, hle⟩ := ih b
      refine ⟨c :: init, m, by rw [heq]; rfl, fun x hx ↦ ?_⟩
      rcases List.mem_cons.mp hx with rfl | hx
      · exact (not_lt.mp hbc).trans (hle b List.mem_cons_self)
      · exact hle x hx

/-! ## The outer loop -/

variable (key) in
/-- The outer invariant after some passes over the first `n` elements of `l`: an unsorted part
`A`, then a sorted part `S` at least as large as every element of `A`. -/
structure Stage (l : List α) (n : ℕ) (A S : List α) : Prop where
  /-- The part already passed over is sorted. -/
  sorted : S.Pairwise fun a b ↦ key a ≤ key b
  /-- Nothing left to sort exceeds anything sorted. -/
  below : ∀ a ∈ A, ∀ b ∈ S, key a ≤ key b
  /-- Together they are the first `n` elements, rearranged. -/
  perm : (A ++ S).Perm (l.take n)

variable (key) in
theorem stage_start (l : List α) (n : ℕ) : Stage key l n (l.take n) [] :=
  ⟨List.Pairwise.nil, by simp, by simp⟩

/-- **The pass step.** A pass over `c :: A` moves a largest element of it to the front of the
sorted part. -/
theorem Stage.pass {l : List α} {n : ℕ} {c : α} {A S : List α} (h : Stage key l n (c :: A) S) :
    ∃ init m, bubbleFrom key c A = init ++ [m] ∧ Stage key l n init (m :: S) := by
  obtain ⟨init, m, heq, hle⟩ := bubbleFrom_eq_append key c A
  have hperm : (init ++ [m]).Perm (c :: A) := heq ▸ bubbleFrom_perm c A
  have hsub : ∀ x ∈ init, x ∈ c :: A := fun x hx ↦ hperm.subset (by simp [hx])
  refine ⟨init, m, heq, ⟨?_, ?_, ?_⟩⟩
  · have hm : m ∈ c :: A := hperm.subset (by simp)
    exact List.pairwise_cons.mpr ⟨fun b hb ↦ h.below m hm b hb, h.sorted⟩
  · intro a ha b hb
    rcases List.mem_cons.mp hb with rfl | hb
    · exact hle a (hsub a ha)
    · exact h.below a (hsub a ha) b hb
  · rw [show init ++ m :: S = (init ++ [m]) ++ S by simp]
    exact (hperm.append_right S).trans h.perm

variable (key) in
/-- After `k` passes with bounds `n - i - 1`, the first `n` elements are an unsorted part of
`n - k` elements and a sorted part of `k`. -/
theorem loop_stage {l : List α} {n : ℕ} (hn : n ≤ l.length) :
    ∀ k, k + 1 ≤ n → ∃ A S, loop key k (fun i ↦ n - i - 1) l = some (A ++ S ++ l.drop n) ∧
      A.length = n - k ∧ S.length = k ∧ Stage key l n A S := by
  intro k
  induction k with
  | zero =>
    intro _
    refine ⟨l.take n, [], by simp [loop], by simp; omega, rfl, stage_start key l n⟩
  | succ k ih =>
    intro hk
    obtain ⟨A, S, hrun, hA, hS, hst⟩ := ih (by omega)
    -- the unsorted part still has at least two elements
    obtain ⟨c, A', rfl⟩ : ∃ c A', A = c :: A' :=
      List.exists_cons_of_ne_nil (by rintro rfl; simp at hA; omega)
    obtain ⟨init, m, heq, hst'⟩ := hst.pass
    have hlen : init.length = A'.length := by
      have := congrArg List.length heq
      rw [(bubbleFrom_perm c A').length_eq] at this
      simp at this
      omega
    refine ⟨init, m :: S, ?_, by simp at hA; omega, by simp [hS], hst'⟩
    have hbound : n - k - 1 = A'.length := by simp at hA; omega
    rw [loop, List.range_succ, List.foldlM_append, ← loop, hrun]
    simp only [Option.bind_eq_bind, Option.bind_some, List.foldlM_cons, List.foldlM_nil]
    rw [hbound, List.append_assoc, pass_append _ (by simp), pass_eq_bubbleFrom, heq]
    simp

variable (key) in
/-- **Bubble sort sorts.** With the bounds `n - 1` and `n - i - 1`, the loop succeeds, leaves its
first `n` elements a sorted permutation of the input's first `n`, and does not touch the rest. -/
theorem loop_sorts {l : List α} {n : ℕ} (hn : n ≤ l.length) :
    ∃ l', loop key (n - 1) (fun i ↦ n - i - 1) l = some l' ∧ l'.length = l.length ∧
      (l'.take n).Perm (l.take n) ∧ (l'.take n).Pairwise (fun a b ↦ key a ≤ key b) ∧
      l'.drop n = l.drop n := by
  rcases Nat.eq_zero_or_pos n with rfl | hpos
  · exact ⟨l, rfl, rfl, by simp, by simp, rfl⟩
  obtain ⟨A, S, hrun, hA, hS, hst⟩ := loop_stage key hn (n - 1) (by omega)
  obtain ⟨a, rfl⟩ : ∃ a, A = [a] := List.length_eq_one_iff.mp (by omega)
  have hlenA : ([a] ++ S).length = n := by simp; omega
  have htake : ([a] ++ S ++ l.drop n).take n = a :: S := List.take_left' hlenA
  refine ⟨[a] ++ S ++ l.drop n, hrun, ?_, ?_, ?_, ?_⟩
  · simp only [List.length_append, hlenA, List.length_drop]
    omega
  · rw [htake]
    exact hst.perm
  · rw [htake]
    exact List.pairwise_cons.mpr ⟨hst.below a (by simp), hst.sorted⟩
  · exact List.drop_left' hlenA

variable (key) in
/-- The loop reads its inner bounds only below its outer bound. -/
theorem loop_congr {outer : ℕ} {inner inner' : ℕ → ℕ} (h : ∀ i < outer, inner i = inner' i)
    (l : List α) : loop key outer inner l = loop key outer inner' l := by
  have hfold : ∀ (is : List ℕ) (l : List α), (∀ i ∈ is, inner i = inner' i) →
      is.foldlM (fun l i ↦ pass key (inner i) l) l =
        is.foldlM (fun l i ↦ pass key (inner' i) l) l := by
    intro is
    induction is with
    | nil => intro l _; rfl
    | cons i is ih =>
      intro l his
      rw [List.foldlM_cons, List.foldlM_cons, his i List.mem_cons_self]
      cases pass key (inner' i) l with
      | none => rfl
      | some l' => exact ih l' fun j hj ↦ his j (List.mem_cons_of_mem i hj)
  exact hfold _ l fun i hi ↦ h i (List.mem_range.mp hi)

variable (key) in
/-- **A loop inside a prefix leaves the rest alone.** When every pass stays inside `A`, the loop
over `A ++ T` is the loop over `A` followed by `T`: it reads nothing of `T`, and faults exactly
when the loop over `A` alone does. -/
theorem loop_append {A : List α} (T : List α) {outer : ℕ} {inner : ℕ → ℕ}
    (h : ∀ i < outer, inner i < A.length) :
    loop key outer inner (A ++ T) = (loop key outer inner A).map (· ++ T) := by
  -- each pass keeps the length of the prefix, so the next pass stays inside it too
  have hfold : ∀ (is : List ℕ) (A : List α), (∀ i ∈ is, inner i < A.length) →
      is.foldlM (fun l i ↦ pass key (inner i) l) (A ++ T) =
        (is.foldlM (fun l i ↦ pass key (inner i) l) A).map (· ++ T) := by
    intro is
    induction is with
    | nil => intro A _; rfl
    | cons i is ih =>
      intro A his
      rw [List.foldlM_cons, List.foldlM_cons, pass_append T (his i List.mem_cons_self)]
      cases hp : pass key (inner i) A with
      | none => rfl
      | some A' =>
        have hlen : A'.length = A.length := foldlM_swapStep_length hp
        simp only [Option.map_some, Option.bind_eq_bind, Option.bind_some]
        exact ih A' fun j hj ↦ hlen ▸ his j (List.mem_cons_of_mem i hj)
  exact hfold _ A fun i hi ↦ h i (List.mem_range.mp hi)

/-! ## Faults -/

variable (key) in
/-- **A pass that reaches the end of the list faults**: its last comparison reads one past the
end. -/
theorem pass_eq_none {l : List α} {b : ℕ} (hb : l.length ≤ b) (hpos : 0 < b) :
    pass key b l = none := by
  cases l with
  | nil =>
    obtain ⟨b, rfl⟩ : ∃ b', b = b' + 1 := ⟨b - 1, by omega⟩
    rw [pass, List.range_eq_range', List.range'_succ, List.foldlM_cons]
    rfl
  | cons c rest =>
    simp only [List.length_cons] at hb
    have hsplit : List.range b =
        List.range rest.length ++ rest.length :: List.range' (rest.length + 1) (b - rest.length - 1) := by
      rw [List.range_eq_range', List.range_eq_range', ← List.range'_succ]
      conv_lhs => rw [show b = rest.length + (b - rest.length - 1 + 1) by omega]
      rw [← List.range'_append_1, Nat.zero_add]
    have hlast : swapStep key (bubbleFrom key c rest) rest.length = none := by
      have hlen : (bubbleFrom key c rest).length = rest.length + 1 := by
        rw [(bubbleFrom_perm c rest).length_eq, List.length_cons]
      simp [swapStep, List.getElem?_eq_none (by omega : (bubbleFrom key c rest).length ≤ rest.length + 1)]
    rw [pass, hsplit, List.foldlM_append, ← pass, pass_eq_bubbleFrom, Option.bind_eq_bind,
      Option.bind_some, List.foldlM_cons, hlast]
    rfl

/-- **A loop whose first pass faults, faults.** -/
theorem loop_eq_none {outer : ℕ} {inner : ℕ → ℕ} {l : List α} (houter : 0 < outer)
    (h : pass key (inner 0) l = none) : loop key outer inner l = none := by
  obtain ⟨outer, rfl⟩ : ∃ o, outer = o + 1 := ⟨outer - 1, by omega⟩
  rw [loop, List.range_eq_range', List.range'_succ, List.foldlM_cons, h]
  rfl

/-- A list with distinct keys has one ordering by key: two sorted permutations of it are
equal. -/
theorem eq_of_perm_of_sorted {l l₁ l₂ : List α} (hnd : (l.map key).Nodup) (h₁ : l₁.Perm l)
    (h₂ : l₂.Perm l) (s₁ : l₁.Pairwise fun a b ↦ key a ≤ key b)
    (s₂ : l₂.Pairwise fun a b ↦ key a ≤ key b) : l₁ = l₂ := by
  refine List.Perm.eq_of_pairwise (fun a b ha hb hab hba ↦ ?_) s₁ s₂ (h₁.trans h₂.symm)
  exact List.inj_on_of_nodup_map hnd (h₁.mem_iff.mp ha) (h₂.mem_iff.mp hb) (le_antisymm hab hba)

end BubbleSort

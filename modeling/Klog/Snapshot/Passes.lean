import Klog.Model.Snapshot

/-!
# The passes of `klog_snapshot`, one specification each

`klog_snapshot` is three loops: the counting pass, the copying pass and the sort. Each gets one
specification here, over arbitrary rings, and `klogSnapshotOf_spec` puts them together. Nothing
in this file assumes that the rings came from a run: the counting pass may see other rings than
the copying pass, and the rings may hold anything.

## What the passes compute

A ring *retains* the write positions `[head - min head 256, head)` (`KlogCpuBuf.positions`),
which are the positions the copying pass walks. The counting pass scans the physical slots
`0 .. min head 256 - 1` instead; these are the slots of the same positions, in another order, so
`min_seq` is the least `seq` the seen rings retain (`countPass_snd_le`, `countPass_snd_cases`).
The copying pass keeps the retained entries at or above the threshold, in CPU order and then in
position order, and stops after `max_entries` of them (`copyPass_spec`). The sort then orders
that prefix of the caller's buffer by `seq` when it is not empty, and runs off the buffer when it
is (`sortBySeq_spec`, `sortBySeq_zero`).
-/

namespace Klog

/-! ## What a ring retains -/

/-- The write positions `[start, end)` the copying pass reads from a ring. -/
def KlogCpuBuf.positions (b : KlogCpuBuf) : List ℕ :=
  let (start, stop) : UInt32 × UInt32 :=
    if b.head > 256 then (b.head - 256, b.head) else (0, b.head)
  List.range' start.toNat (stop.toNat - start.toNat)

/-- The entries a ring retains, oldest first. -/
def KlogCpuBuf.retained (b : KlogCpuBuf) : List KlogEntry :=
  b.positions.map b.slot

theorem copyRing_eq (m : ℤ) (thr : UInt32) (acc : ℤ × List KlogEntry) (b : KlogCpuBuf) :
    copyRing m thr acc b = copyRange b m thr b.positions acc := rfl

theorem KlogCpuBuf.positions_eq (b : KlogCpuBuf) :
    b.positions = List.range' (b.head.toNat - min b.head.toNat klogBufSize)
      (min b.head.toNat klogBufSize) := by
  by_cases h : b.head > 256
  · have h' : 256 < b.head.toNat := UInt32.lt_iff_toNat_lt.mp h
    have hsub : (b.head - 256).toNat = b.head.toNat - 256 :=
      UInt32.toNat_sub_of_le _ _ (UInt32.le_of_lt h)
    simp only [positions, if_pos h, hsub, klogBufSize]
    rw [min_eq_right (by omega : 256 ≤ b.head.toNat), Nat.sub_sub_self (by omega)]
  · have h' : b.head.toNat ≤ 256 := by
      have := UInt32.not_lt.mp h
      rwa [UInt32.le_iff_toNat_le] at this
    simp only [positions, if_neg h, klogBufSize]
    rw [min_eq_left h']
    simp

theorem KlogCpuBuf.mem_positions (b : KlogCpuBuf) (k : ℕ) : k ∈ b.positions ↔ b.Retains k := by
  rw [b.positions_eq, List.mem_range'_1, KlogCpuBuf.Retains]
  omega

theorem KlogCpuBuf.length_positions (b : KlogCpuBuf) :
    b.positions.length = min b.head.toNat klogBufSize := by
  rw [b.positions_eq, List.length_range']

theorem KlogCpuBuf.slot_mod (b : KlogCpuBuf) (k : ℕ) : b.slot (k % klogBufSize) = b.slot k := by
  simp only [KlogCpuBuf.slot]
  congr 1
  exact Fin.ext (by simp)

/-- A retained position lies in a slot that the counting pass scans. -/
theorem KlogCpuBuf.mod_lt_of_retains {b : KlogCpuBuf} {k : ℕ} (hk : b.Retains k) :
    k % klogBufSize < min b.head.toNat klogBufSize := by
  rw [KlogCpuBuf.Retains] at hk
  simp only [klogBufSize] at hk ⊢
  omega

/-- A slot that the counting pass scans holds a retained position: the positions retained are
`min head 256` consecutive ones, so they meet every residue the scan reaches. -/
theorem KlogCpuBuf.exists_retains_of_lt {b : KlogCpuBuf} {i : ℕ}
    (hi : i < min b.head.toNat klogBufSize) : ∃ k, b.Retains k ∧ b.slot k = b.slot i := by
  set a := b.head.toNat - min b.head.toNat klogBufSize
  refine ⟨a + (i + klogBufSize - a % klogBufSize) % klogBufSize, ?_, ?_⟩
  · rw [KlogCpuBuf.Retains]
    simp only [klogBufSize, a] at hi ⊢
    omega
  · rw [← b.slot_mod]
    congr 1
    simp only [klogBufSize, a] at hi ⊢
    omega

/-! ## The counting pass -/

/-- The running minimum keeps below its start and below every `seq` it has scanned. -/
theorem scanMinSeq_le (b : KlogCpuBuf) (m : UInt32) :
    ∀ n, scanMinSeq b n m ≤ m ∧ ∀ i < n, scanMinSeq b n m ≤ (b.slot i).seq
  | 0 => ⟨UInt32.le_refl m, fun _ hi ↦ absurd hi (Nat.not_lt_zero _)⟩
  | n + 1 => by
    obtain ⟨hm, hslots⟩ := scanMinSeq_le b m n
    have hstep : scanMinSeq b (n + 1) m = if (b.slot n).seq < scanMinSeq b n m
        then (b.slot n).seq else scanMinSeq b n m := by
      rw [scanMinSeq, List.range_succ, List.foldl_append]
      rfl
    rw [hstep]
    split_ifs with hlt
    · -- the new slot is the new minimum
      have hle : (b.slot n).seq ≤ scanMinSeq b n m := UInt32.le_of_lt hlt
      refine ⟨UInt32.le_trans hle hm, fun i hi ↦ ?_⟩
      rcases Nat.lt_succ_iff_lt_or_eq.mp hi with hi | rfl
      · exact UInt32.le_trans hle (hslots i hi)
      · exact UInt32.le_refl _
    · refine ⟨hm, fun i hi ↦ ?_⟩
      rcases Nat.lt_succ_iff_lt_or_eq.mp hi with hi | rfl
      · exact hslots i hi
      · exact UInt32.not_lt.mp hlt

/-- The running minimum is its start or one of the `seq`s it scanned. -/
theorem scanMinSeq_cases (b : KlogCpuBuf) (m : UInt32) :
    ∀ n, scanMinSeq b n m = m ∨ ∃ i < n, scanMinSeq b n m = (b.slot i).seq
  | 0 => Or.inl rfl
  | n + 1 => by
    have hstep : scanMinSeq b (n + 1) m = if (b.slot n).seq < scanMinSeq b n m
        then (b.slot n).seq else scanMinSeq b n m := by
      rw [scanMinSeq, List.range_succ, List.foldl_append]
      rfl
    rw [hstep]
    split_ifs
    · exact Or.inr ⟨n, Nat.lt_succ_self n, rfl⟩
    · rcases scanMinSeq_cases b m n with h | ⟨i, hi, h⟩
      · exact Or.inl h
      · exact Or.inr ⟨i, Nat.lt_succ_of_lt hi, h⟩

theorem countRing_eq (acc : ℤ × UInt32) (b : KlogCpuBuf) :
    countRing acc b = (acc.1 + min b.head.toNat klogBufSize,
      scanMinSeq b (min b.head.toNat klogBufSize) acc.2) := by
  by_cases h : b.head > 256
  · have h' : 256 < b.head.toNat := UInt32.lt_iff_toNat_lt.mp h
    rw [countRing, if_pos h, min_eq_right (by simp only [klogBufSize]; omega)]
    rfl
  · have h' : b.head.toNat ≤ 256 := by
      have := UInt32.not_lt.mp h
      rwa [UInt32.le_iff_toNat_le] at this
    rw [countRing, if_neg h, min_eq_left (by simp only [klogBufSize]; omega)]

section CountPass

variable (seen : Fin ncpu → KlogCpuBuf)

theorem countFold_eq :
    ∀ (l : List (Fin ncpu)) (acc : ℤ × UInt32),
      (l.foldl (fun acc c ↦ countRing acc (seen c)) acc).1 =
        acc.1 + (l.map fun c ↦ ((min (seen c).head.toNat klogBufSize : ℕ) : ℤ)).sum ∧
      ((l.foldl (fun acc c ↦ countRing acc (seen c)) acc).2 ≤ acc.2 ∧
        ∀ c ∈ l, ∀ e ∈ (seen c).retained, (l.foldl (fun acc c ↦ countRing acc (seen c)) acc).2 ≤ e.seq) ∧
      ((l.foldl (fun acc c ↦ countRing acc (seen c)) acc).2 = acc.2 ∨
        ∃ c ∈ l, ∃ e ∈ (seen c).retained, (l.foldl (fun acc c ↦ countRing acc (seen c)) acc).2 = e.seq)
  | [], acc => by simp
  | c :: l, acc => by
    rw [List.foldl_cons]
    obtain ⟨hfst, ⟨hle, hret⟩, hcases⟩ := countFold_eq l (countRing acc (seen c))
    have h1 : (countRing acc (seen c)).1 = acc.1 + min (seen c).head.toNat klogBufSize := by
      rw [countRing_eq]
    have h2 : (countRing acc (seen c)).2 =
        scanMinSeq (seen c) (min (seen c).head.toNat klogBufSize) acc.2 := by
      rw [countRing_eq]
    rw [h1] at hfst
    rw [h2] at hle hcases
    obtain ⟨hscan, hslots⟩ := scanMinSeq_le (seen c) acc.2 (min (seen c).head.toNat klogBufSize)
    refine ⟨by rw [hfst, List.map_cons, List.sum_cons, add_assoc], ⟨UInt32.le_trans hle hscan, ?_⟩,
      ?_⟩
    · intro d hd e he
      rcases List.mem_cons.mp hd with rfl | hd
      · -- the ring scanned first: its retained entries sit in scanned slots
        obtain ⟨k, hk, rfl⟩ := List.mem_map.mp he
        rw [← (seen d).slot_mod]
        exact UInt32.le_trans hle
          (hslots _ (KlogCpuBuf.mod_lt_of_retains (((seen d).mem_positions k).mp hk)))
      · exact hret d hd e he
    · rcases hcases with h | ⟨d, hd, e, he, h⟩
      · rcases scanMinSeq_cases (seen c) acc.2 (min (seen c).head.toNat klogBufSize)
          with h' | ⟨i, hi, h'⟩
        · exact Or.inl (h.trans h')
        · obtain ⟨k, hk, hslot⟩ := KlogCpuBuf.exists_retains_of_lt hi
          refine Or.inr ⟨c, List.mem_cons_self, (seen c).slot k, ?_, ?_⟩
          · exact List.mem_map.mpr ⟨k, ((seen c).mem_positions k).mpr hk, rfl⟩
          · rw [h, h', hslot]
      · exact Or.inr ⟨d, List.mem_cons_of_mem c hd, e, he, h⟩

/-- `total` is the retained count `Σ min(head, 256)` of the rings the counting pass saw. -/
theorem countPass_fst :
    (countPass seen).1 = ∑ c, ((min (seen c).head.toNat klogBufSize : ℕ) : ℤ) := by
  rw [Fin.sum_univ_def, countPass, (countFold_eq seen _ _).1, zero_add]

/-- `min_seq` is at most every `seq` the seen rings retain. -/
theorem countPass_snd_le {c : Fin ncpu} {e : KlogEntry} (he : e ∈ (seen c).retained) :
    (countPass seen).2 ≤ e.seq :=
  (countFold_eq seen _ _).2.1.2 c (List.mem_finRange c) e he

/-- `min_seq` is `0xFFFFFFFF` or a `seq` that a seen ring retains. -/
theorem countPass_snd_cases :
    (countPass seen).2 = 0xFFFFFFFF ∨ ∃ c, ∃ e ∈ (seen c).retained, (countPass seen).2 = e.seq := by
  rcases (countFold_eq seen (List.finRange ncpu) (0, 0xFFFFFFFF)).2.2 with h | ⟨c, -, e, he, h⟩
  · exact Or.inl h
  · exact Or.inr ⟨c, e, he, h⟩

/-- **`min_seq` is the least retained `seq`**, once one is known and every other is at least
it. -/
theorem countPass_snd_toNat_eq {m : ℕ} {c : Fin ncpu} {e : KlogEntry} (he : e ∈ (seen c).retained)
    (hm : e.seq.toNat = m) (hge : ∀ c, ∀ e ∈ (seen c).retained, m ≤ e.seq.toNat) :
    (countPass seen).2.toNat = m := by
  have hle := UInt32.le_iff_toNat_le.mp (countPass_snd_le seen he)
  have hlt := e.seq.toNat_lt
  rcases countPass_snd_cases seen with h | ⟨c', e', he', h⟩
  · -- no retained `seq` is below `0xFFFFFFFF`, so `m` is that
    rw [h] at hle ⊢
    simp only [UInt32.reduceToNat] at hle ⊢
    omega
  · have := hge c' e' he'
    rw [h] at hle ⊢
    omega

end CountPass

/-! ## The copying pass -/

/-- The state of the copying pass once it has written `d` to the front of `buf`: the count and
the buffer. -/
def copyState (buf d : List KlogEntry) : ℤ × List KlogEntry :=
  (d.length, d ++ buf.drop d.length)

/-- The entries among `es` that the copying pass keeps: those at or above the threshold. -/
def atOrAbove (thr : UInt32) (es : List KlogEntry) : List KlogEntry :=
  es.filter fun e ↦ thr ≤ e.seq

/-- What the copying pass keeps from the rings, in the order it meets them, before the cut at
`max_entries`. -/
def selected (rings : Fin ncpu → KlogCpuBuf) (thr : UInt32) : List KlogEntry :=
  (List.finRange ncpu).flatMap fun c ↦ atOrAbove thr (rings c).retained

theorem copyState_nil (buf : List KlogEntry) : copyState buf [] = (0, buf) := rfl

theorem map_seq_atOrAbove (thr : UInt32) (es : List KlogEntry) :
    (atOrAbove thr es).map (fun e ↦ e.seq.toNat) =
      (es.map fun e ↦ e.seq.toNat).filter (thr.toNat ≤ ·) := by
  rw [atOrAbove, List.filter_map]
  congr 1

/-- The `seq`s the copying pass keeps, ring by ring. -/
theorem map_seq_selected (rings : Fin ncpu → KlogCpuBuf) (thr : UInt32) :
    (selected rings thr).map (fun e ↦ e.seq.toNat) = (List.finRange ncpu).flatMap
      fun c ↦ ((rings c).retained.map fun e ↦ e.seq.toNat).filter (thr.toNat ≤ ·) := by
  rw [selected, List.map_flatMap]
  simp only [map_seq_atOrAbove]

/-- Writing at `count` extends what has been written by one entry. -/
theorem storeAt_copyState {buf d : List KlogEntry} (e : KlogEntry) (h : d.length < buf.length) :
    storeAt (d ++ buf.drop d.length) d.length e =
      some ((d ++ [e]) ++ buf.drop (d ++ [e]).length) := by
  have hlen : (d ++ buf.drop d.length).length = buf.length := by
    rw [List.length_append, List.length_drop]
    omega
  rw [storeAt, if_pos ⟨by omega, by rw [hlen]; exact_mod_cast h⟩,
    Int.toNat_natCast, List.set_append_right _ _ (le_refl _), Nat.sub_self,
    List.drop_eq_getElem_cons h, List.set_cons_zero, List.length_append, List.length_singleton,
    List.append_assoc, List.singleton_append]

section CopyPass

variable {m : ℕ} {buf : List KlogEntry} (thr : UInt32) (hm : m ≤ buf.length)
include hm

/-- **One section of the copying pass.** From a count below `max_entries`, it writes the kept
entries of its positions after what is already written, until the count reaches `max_entries`. -/
theorem copyRange_spec (b : KlogCpuBuf) :
    ∀ (is : List ℕ) (d : List KlogEntry), d.length ≤ m →
      copyRange b m thr is (copyState buf d) =
        some (copyState buf (d ++ (atOrAbove thr (is.map b.slot)).take (m - d.length)))
  | [], d, _ => by simp [copyRange, atOrAbove]
  | i :: is, d, hd => by
    rw [copyState, copyRange]
    by_cases hlt : d.length < m
    · rw [if_pos (by exact_mod_cast hlt)]
      by_cases hthr : thr ≤ (b.slot i).seq
      · -- the entry is kept: written at `count`, and the pass goes on from `count + 1`
        have hnext := copyRange_spec b is (d ++ [b.slot i]) (by simp; omega)
        have hcount : ((d ++ [b.slot i]).length : ℤ) = d.length + 1 := by simp
        rw [if_pos hthr, storeAt_copyState (b.slot i) (lt_of_lt_of_le hlt hm), Option.bind_eq_bind,
          Option.bind_some, ← hcount]
        refine hnext.trans ?_
        have hkeep : atOrAbove thr ((i :: is).map b.slot) =
            b.slot i :: atOrAbove thr (is.map b.slot) :=
          List.filter_cons_of_pos (by simpa using hthr)
        have hroom : m - d.length = m - (d ++ [b.slot i]).length + 1 := by simp; omega
        rw [hkeep, hroom, List.take_succ_cons, List.append_assoc, List.singleton_append]
      · have hskip : atOrAbove thr ((i :: is).map b.slot) = atOrAbove thr (is.map b.slot) :=
          List.filter_cons_of_neg (by simpa using hthr)
        rw [if_neg hthr, hskip]
        exact copyRange_spec b is d hd
    · -- `count` has reached `max_entries`: nothing more is written
      rw [if_neg (by exact_mod_cast hlt), Nat.sub_eq_zero_of_le (by omega), List.take_zero,
        List.append_nil]
      rfl

theorem copyRing_spec (b : KlogCpuBuf) (d : List KlogEntry) (hd : d.length ≤ m) :
    copyRing m thr (copyState buf d) b =
      some (copyState buf (d ++ (atOrAbove thr b.retained).take (m - d.length))) :=
  copyRange_spec thr hm b b.positions d hd

theorem copyFold_spec (rings : Fin ncpu → KlogCpuBuf) :
    ∀ (l : List (Fin ncpu)) (d : List KlogEntry), d.length ≤ m →
      l.foldlM (fun acc c ↦ copyRing m thr acc (rings c)) (copyState buf d) =
        some (copyState buf
          (d ++ (l.flatMap fun c ↦ atOrAbove thr (rings c).retained).take (m - d.length)))
  | [], d, _ => by simp
  | c :: l, d, hd => by
    set d' := d ++ (atOrAbove thr (rings c).retained).take (m - d.length)
    have hd' : d'.length = d.length + min (m - d.length) (atOrAbove thr (rings c).retained).length :=
      by simp [d']
    rw [List.foldlM_cons, copyRing_spec thr hm _ d hd, Option.bind_eq_bind, Option.bind_some,
      copyFold_spec rings l d' (by omega), List.flatMap_cons, List.take_append, List.append_assoc]
    -- the room left after this ring is what it did not fill
    have hroom : m - d'.length = m - d.length - (atOrAbove thr (rings c).retained).length := by
      omega
    rw [hroom]

/-- **The copying pass.** It writes the first `max_entries` kept entries of the rings, in CPU
order and then position order, to the front of `buf`, and returns how many it wrote. -/
theorem copyPass_spec (rings : Fin ncpu → KlogCpuBuf) :
    copyPass rings m thr buf = some (copyState buf ((selected rings thr).take m)) := by
  have h := copyFold_spec thr hm rings (List.finRange ncpu) [] (Nat.zero_le m)
  rwa [List.nil_append, List.length_nil, Nat.sub_zero] at h

end CopyPass

/-! ## The sort -/

theorem toNat_ofInt_natCast {n : ℕ} (h : n < 2 ^ 32) : (UInt32.ofInt n).toNat = n := by
  rw [UInt32.ofInt, UInt32.toNat_ofNat', Int.emod_eq_of_lt (by omega) (by omega), Int.toNat_natCast,
    Nat.mod_eq_of_lt h]

/-- For a count `n ≥ 1`, the `uint` bounds `count - 1` and `count - i - 1` are the plain ones. -/
theorem sortBySeq_eq_loop {n : ℕ} (hn : 1 ≤ n) (h32 : n < 2 ^ 32) (buf : List KlogEntry) :
    sortBySeq n buf =
      BubbleSort.loop (fun e : KlogEntry ↦ e.seq.toNat) (n - 1) (fun i ↦ n - i - 1) buf := by
  have houter : (UInt32.ofInt ((n : ℤ) - 1)).toNat = n - 1 := by
    rw [show ((n : ℤ) - 1) = ((n - 1 : ℕ) : ℤ) by omega, toNat_ofInt_natCast (by omega)]
  rw [sortBySeq, houter]
  apply BubbleSort.loop_congr
  intro i hi
  -- `count - i - 1` stays positive below the outer bound, so neither subtraction wraps
  have hn' : (UInt32.ofInt n).toNat = n := toNat_ofInt_natCast h32
  have hi' : (UInt32.ofNat i).toNat = i := by
    rw [UInt32.toNat_ofNat', Nat.mod_eq_of_lt (by omega)]
  have h1 : (UInt32.ofInt n - UInt32.ofNat i).toNat = n - i := by
    rw [UInt32.toNat_sub_of_le _ _ (UInt32.le_iff_toNat_le.mpr (by omega)), hn', hi']
  rw [UInt32.toNat_sub_of_le _ _ (UInt32.le_iff_toNat_le.mpr (by simp; omega)), h1]
  simp

/-- **The sort of a nonempty count.** It terminates, touches only `buf[0 .. count)`, and leaves
there a permutation of what was there, ordered by `seq`. -/
theorem sortBySeq_spec {n : ℕ} (hn : 1 ≤ n) {buf : List KlogEntry} (hbuf : n ≤ buf.length)
    (h32 : n < 2 ^ 32) :
    ∃ buf', sortBySeq n buf = some buf' ∧ buf'.length = buf.length ∧
      (buf'.take n).Perm (buf.take n) ∧
      (buf'.take n).Pairwise (fun a b ↦ a.seq.toNat ≤ b.seq.toNat) ∧ buf'.drop n = buf.drop n := by
  rw [sortBySeq_eq_loop hn h32]
  exact BubbleSort.loop_sorts _ hbuf

/-- The sort of a count `n ≥ 1` stays inside the first `n` entries. -/
theorem sortBySeq_append {n : ℕ} (hn : 1 ≤ n) (h32 : n < 2 ^ 32) {A : List KlogEntry}
    (hA : n ≤ A.length) (T : List KlogEntry) :
    sortBySeq n (A ++ T) = (sortBySeq n A).map (· ++ T) := by
  rw [sortBySeq_eq_loop hn h32, sortBySeq_eq_loop hn h32]
  exact BubbleSort.loop_append _ T fun i _ ↦ by omega

/-- **The closing sort of a nonempty count.** For an `int` count `≥ 1` and a buffer of at least
`count` entries, the sort run on `buf[0 .. count)` alone ends without a fault, so it reads and
writes nothing outside it; on the whole buffer it does the same and leaves the rest as it was;
and it leaves there a permutation of what was there, ordered by `seq`. -/
theorem sort_sorts_prefix (count : ℤ) (hcount : 1 ≤ count) (hint : count < 2 ^ 31)
    (buf : List KlogEntry) (hbuf : count ≤ buf.length) :
    ∃ sorted, sortBySeq count (buf.take count.toNat) = some sorted ∧
      sortBySeq count buf = some (sorted ++ buf.drop count.toNat) ∧
      sorted.Perm (buf.take count.toNat) ∧
      sorted.Pairwise (fun a b ↦ a.seq.toNat ≤ b.seq.toNat) := by
  obtain ⟨n, rfl⟩ : ∃ n : ℕ, count = n := ⟨count.toNat, by omega⟩
  rw [Int.toNat_natCast]
  have hn : 1 ≤ n := by omega
  have h32 : n < 2 ^ 32 := by omega
  have hA : n ≤ (buf.take n).length := by rw [List.length_take]; omega
  obtain ⟨s, hs, hslen, hperm, hsorted, -⟩ := sortBySeq_spec hn hA h32
  -- the sorted prefix is all of the result
  have hall : s.take n = s := List.take_of_length_le (by rw [hslen, List.length_take]; omega)
  rw [hall, List.take_take, min_self] at hperm
  rw [hall] at hsorted
  have hwhole := sortBySeq_append hn h32 hA (buf.drop n)
  rw [List.take_append_drop, hs, Option.map_some] at hwhole
  exact ⟨s, hs, hwhole, hperm, hsorted⟩

theorem sort_sorts_prefix_three :
    let buf : List KlogEntry := ([3, 1, 2, 0] : List UInt32).map fun s ↦
      { seq := s, timestampHi := 0, timestampLo := 0, cpu := 0, pid := 0, level := 0,
        msg := fun _ ↦ '\x00' }
    (1 : ℤ) ≤ 3 ∧ (3 : ℤ) < 2 ^ 31 ∧ (3 : ℤ) ≤ buf.length ∧
      ∃ sorted, sortBySeq 3 (buf.take (3 : ℤ).toNat) = some sorted ∧
        sortBySeq 3 buf = some (sorted ++ buf.drop (3 : ℤ).toNat) ∧
        sorted.Perm (buf.take (3 : ℤ).toNat) ∧
        sorted.Pairwise (fun a b ↦ a.seq.toNat ≤ b.seq.toNat) :=
  ⟨by norm_num, by norm_num, by decide, sort_sorts_prefix 3 (by norm_num) (by norm_num) _ (by decide)⟩

/-- **The sort of an empty count runs off the buffer**: `count - 1` and `count - 0 - 1` are
`0xFFFFFFFF` as `uint`s, and the first pass reads past the end. -/
theorem sortBySeq_zero {buf : List KlogEntry} (h32 : buf.length < 2 ^ 32) :
    sortBySeq 0 buf = none := by
  have houter : (UInt32.ofInt ((0 : ℤ) - 1)).toNat = 2 ^ 32 - 1 := by decide
  have hinner : (UInt32.ofInt (0 : ℤ) - UInt32.ofNat 0 - 1).toNat = 2 ^ 32 - 1 := by decide
  rw [sortBySeq, houter]
  exact BubbleSort.loop_eq_none (by decide)
    (by rw [hinner]; exact BubbleSort.pass_eq_none _ (by omega) (by decide))

/-! ## The whole snapshot -/

/-- The threshold `min_seq + skip_count` that the counting pass hands to the copying pass. -/
def snapshotThreshold (seen : Fin ncpu → KlogCpuBuf) (maxEntries : ℤ) : UInt32 :=
  (countPass seen).2 +
    UInt32.ofInt (if (countPass seen).1 > maxEntries then (countPass seen).1 - maxEntries else 0)

theorem klogSnapshotOf_eq (seen copied : Fin ncpu → KlogCpuBuf) (buf : List KlogEntry)
    (maxEntries : ℤ) :
    klogSnapshotOf seen copied buf maxEntries =
      (copyPass copied maxEntries (snapshotThreshold seen maxEntries) buf).bind
        fun r ↦ (sortBySeq r.1 r.2).map fun b ↦ (r.1, b) := by
  unfold klogSnapshotOf snapshotThreshold
  cases countPass seen
  dsimp only
  congr 1
  funext r
  obtain ⟨count, b⟩ := r
  cases sortBySeq count b <;> rfl

/-- **The snapshot, pass by pass.** Let `sel` be the first `max_entries` entries, in CPU order and
then position order, that the copying pass finds at or above the threshold of the counting pass.
If `sel` is empty, the sort runs off the buffer. Otherwise the snapshot returns its length, with
a permutation of `sel` ordered by `seq` at the front of the buffer and the rest of the buffer as
it was. -/
theorem klogSnapshotOf_spec (seen copied : Fin ncpu → KlogCpuBuf) {m : ℕ}
    {buf : List KlogEntry} (hm : m ≤ buf.length) (h32 : buf.length < 2 ^ 32) :
    let sel := (selected copied (snapshotThreshold seen m)).take m
    (sel = [] → klogSnapshotOf seen copied buf m = none) ∧
    (sel ≠ [] → ∃ buf', klogSnapshotOf seen copied buf m = some ((sel.length : ℤ), buf') ∧
      (buf'.take sel.length).Perm sel ∧
      (buf'.take sel.length).Pairwise (fun a b ↦ a.seq.toNat ≤ b.seq.toNat) ∧
      buf'.drop sel.length = buf.drop sel.length) := by
  dsimp only
  rw [klogSnapshotOf_eq, copyPass_spec _ hm, Option.bind_some, copyState]
  dsimp only
  set sel := (selected copied (snapshotThreshold seen m)).take m
  refine ⟨fun hsel ↦ ?_, fun hsel ↦ ?_⟩
  · rw [hsel, List.length_nil, Nat.cast_zero, List.nil_append, List.drop_zero,
      sortBySeq_zero h32]
    rfl
  · have hn : 1 ≤ sel.length := List.length_pos_iff.mpr hsel
    have hle : sel.length ≤ m := by simp [sel]
    obtain ⟨b', hsort, -, hperm, hsorted, hdrop⟩ :=
      sortBySeq_spec hn (show sel.length ≤ (sel ++ buf.drop sel.length).length by simp) (by omega)
    refine ⟨b', by rw [hsort]; rfl, ?_, hsorted, ?_⟩
    · rwa [List.take_left' rfl] at hperm
    · rw [hdrop, List.drop_left' rfl]

end Klog

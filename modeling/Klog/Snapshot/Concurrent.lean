import Klog.Snapshot.Reachable

/-!
# `klog_snapshot` while other CPUs log

`klog_snapshot` takes each ring's lock twice, once in the counting pass and once in the copying
pass, and holds no lock in between: `2 * NCPU` locked sections, and other CPUs may log between
any two of them. This file composes the passes of `Klog.Snapshot.Passes` with such runs.

## The interleaving

A call of `klog_printf_internal` on CPU `c` formats its message with no lock held, then, holding
`cpu_logs[c].lock`, takes its `seq` and writes its slot. Its effect on the store is one step,
placed when it takes its `seq`: a section on ring `c` holds the same lock and sees the call
wholly or not at all, and a section on another ring does not read ring `c`. One `klog_snapshot`
call against concurrent logging is therefore a reachable store `s`, the calls `gaps j` that take
their `seq` before section `j` and after section `j - 1`, and the sections in the source's order:
the counting section of CPU `j` for `j < NCPU`, the copying section of CPU `c` at `NCPU + c`.

## The argument

While fewer than `2^32` calls have been made, logging only appends to the logs of
`Klog.History`, so the ring each section sees is a window of a prefix of one log per CPU. The
counting pass fixes `min_seq` and `total` from the earlier windows and the copying pass filters
the later ones. A growing window keeps as many values at or above a threshold as it had, since
what leaves it is older than what enters, and at most `skip_count` of the counted values lie
below `min_seq + skip_count`; so the copying pass still finds `min(total, max_entries)` entries
(`RingWindow.length_sub_le_countP_window`). They are distinct, each was retained by its ring when
that ring was copied, and the sort leaves them in strictly increasing `seq` order.

A counting pass that counts nothing leaves `min_seq` at `0xFFFFFFFF`, and then the snapshot
faults (`klogSnapshotInterleaved_eq_none_of_total_eq_zero`). Nothing in the kernel calls
`klog_clear`, though, and without it the boot CPU's ring keeps the entry of `klog_init`: every
counting pass counts it, and the snapshot returns (`snapshot_interleaved_bounds`).
-/

namespace Klog

/-! ## One snapshot among logging calls -/

/-- The calls that take their `seq` before section `j` of the snapshot. -/
def sectionCalls (gaps : ℕ → List LogCall) (j : ℕ) : List LogCall :=
  (List.range (j + 1)).flatMap gaps

/-- The store that section `j` of the snapshot finds. -/
def sectionState (s : KlogState) (gaps : ℕ → List LogCall) (j : ℕ) : KlogState :=
  klogRun s ((sectionCalls gaps j).map KlogOp.log)

/-- The ring that the counting pass sees, section by section. -/
def sectionSeen (s : KlogState) (gaps : ℕ → List LogCall) (c : Fin ncpu) : KlogCpuBuf :=
  (sectionState s gaps c).cpuLogs c

/-- The ring that the copying pass sees, section by section. -/
def sectionCopied (s : KlogState) (gaps : ℕ → List LogCall) (c : Fin ncpu) : KlogCpuBuf :=
  (sectionState s gaps (ncpu + c)).cpuLogs c

/-- `klog_snapshot(buf, max_entries)` started on `s`, with the calls `gaps j` logged before its
section `j`. -/
def klogSnapshotInterleaved (s : KlogState) (gaps : ℕ → List LogCall) (buf : List KlogEntry)
    (maxEntries : ℤ) : Option (ℤ × List KlogEntry) :=
  klogSnapshotOf (sectionSeen s gaps) (sectionCopied s gaps) buf maxEntries

theorem sectionCalls_isPrefix_of_le (gaps : ℕ → List LogCall) {j J : ℕ} (h : j ≤ J) :
    sectionCalls gaps j <+: sectionCalls gaps J := by
  obtain ⟨d, rfl⟩ := Nat.exists_eq_add_of_le h
  rw [sectionCalls, sectionCalls, show j + d + 1 = (j + 1) + d by omega,
    List.range_add (n := j + 1) (m := d), List.flatMap_append]
  exact List.prefix_append _ _

/-! ## Logging only appends -/

/-- Every step of a run of logging calls is a logging step. -/
theorem countP_isLog_map_log (calls : List LogCall) :
    (calls.map KlogOp.log).countP KlogOp.isLog = calls.length := by
  rw [List.countP_map]
  exact List.countP_eq_length.mpr fun _ _ ↦ rfl

theorem History.logs_prefix_step_log (h : History) (call : LogCall) (c : Fin ncpu) :
    h.logs c <+: (h.step (.log call)).logs c := by
  by_cases hc : c.val = call.cpu
  · have hlt : call.cpu < ncpu := hc ▸ c.isLt
    obtain rfl : c = ⟨call.cpu, hlt⟩ := Fin.ext hc
    rw [h.step_log_of_lt call hlt]
    dsimp only
    rw [Function.update_self]
    exact List.prefix_append _ _
  · rw [h.logs_step_log_of_ne call hc]

/-- A run of logging calls only appends to each CPU's log. -/
theorem History.logs_prefix_run_log (c : Fin ncpu) :
    ∀ (h : History) (calls : List LogCall), h.logs c <+: (historyRun h (calls.map .log)).logs c
  | _, [] => List.prefix_refl _
  | h, call :: calls =>
    (h.logs_prefix_step_log call c).trans (History.logs_prefix_run_log c _ calls)

/-- The call numbers of a well-formed history, CPU by CPU, are all distinct. -/
theorem History.WellFormed.nodup_indices {h : History} (hw : h.WellFormed) :
    ((List.finRange ncpu).flatMap fun c ↦ (h.logs c).map Record.index).Nodup := by
  rw [List.nodup_flatMap]
  constructor
  · -- along one log the call numbers increase
    intro c _
    exact List.pairwise_map.mpr ((hw.increasing c).imp Nat.ne_of_lt)
  · -- two logs never share a call number
    refine (List.nodup_finRange ncpu).imp fun {c c'} hne ↦ ?_
    rw [Function.onFun, List.disjoint_left]
    rintro _ hx hx'
    obtain ⟨r, hr, rfl⟩ := List.mem_map.mp hx
    obtain ⟨r', hr', heq⟩ := List.mem_map.mp hx'
    exact hne (hw.disjoint c c' r hr r' hr' heq.symm)

/-! ## The logs at each section -/

section Sections

variable (boot : LogCall) (pre : List KlogOp) (gaps : ℕ → List LogCall)

/-- The logs when section `j` runs, for a snapshot started after `klog_init` and the steps
`pre`. -/
def sectionHistory (j : ℕ) : History :=
  historyRun (History.init boot) (pre ++ (sectionCalls gaps j).map KlogOp.log)

/-- The call numbers on CPU `c` when section `j` runs. -/
def sectionIndices (j : ℕ) (c : Fin ncpu) : List ℕ :=
  ((sectionHistory boot pre gaps j).logs c).map Record.index

theorem sectionState_eq (j : ℕ) :
    sectionState (klogRun (klogInit boot) pre) gaps j =
      klogRun (klogInit boot) (pre ++ (sectionCalls gaps j).map KlogOp.log) :=
  (klogRun_append _ _ _).symm

theorem refines_section (j : ℕ) :
    Refines (sectionHistory boot pre gaps j) (sectionState (klogRun (klogInit boot) pre) gaps j) := by
  rw [sectionState_eq]
  exact refines_reachable boot _

theorem wellFormed_section (j : ℕ) : (sectionHistory boot pre gaps j).WellFormed :=
  wellFormed_reachable boot _

theorem sectionIndices_isPrefix_of_le {j J : ℕ} (h : j ≤ J) (c : Fin ncpu) :
    sectionIndices boot pre gaps j c <+: sectionIndices boot pre gaps J c := by
  obtain ⟨t, ht⟩ := sectionCalls_isPrefix_of_le gaps h
  apply List.IsPrefix.map
  rw [sectionHistory, sectionHistory, ← ht, List.map_append, ← List.append_assoc,
    historyRun_append _ (pre ++ _)]
  exact History.logs_prefix_run_log c _ t

theorem sectionIndices_increasing (j : ℕ) (c : Fin ncpu) :
    (sectionIndices boot pre gaps j c).Pairwise (· < ·) :=
  List.pairwise_map.mpr ((wellFormed_section boot pre gaps j).increasing c)

/-- The call numbers the copying sections see are all distinct: they are prefixes of the logs at
the last section. -/
theorem nodup_copiedIndices :
    ((List.finRange ncpu).flatMap fun c : Fin ncpu ↦ sectionIndices boot pre gaps (ncpu + c) c).Nodup := by
  refine List.Nodup.sublist ?_ (wellFormed_section boot pre gaps (2 * ncpu - 1)).nodup_indices
  apply List.Sublist.flatMap_right
  intro c _
  exact (sectionIndices_isPrefix_of_le boot pre gaps (by have := c.isLt; omega) c).sublist

variable {boot pre gaps} (hcalls : 1 + pre.countP KlogOp.isLog +
  (sectionCalls gaps (2 * ncpu - 1)).length < 2 ^ 32)
include hcalls

theorem calls_section_lt {j : ℕ} (hj : j ≤ 2 * ncpu - 1) :
    (sectionHistory boot pre gaps j).calls < 2 ^ 32 := by
  have hlen := (sectionCalls_isPrefix_of_le gaps hj).length_le
  have hle := calls_reachable_le boot (pre ++ (sectionCalls gaps j).map KlogOp.log)
  rw [List.countP_append, countP_isLog_map_log] at hle
  rw [sectionHistory]
  omega

/-- What a section's ring retains shows, by `seq`, the window of its CPU's call numbers then. -/
theorem retained_seq_section {j : ℕ} (hj : j ≤ 2 * ncpu - 1) (c : Fin ncpu) :
    ((sectionState (klogRun (klogInit boot) pre) gaps j).cpuLogs c).retained.map
        (fun e ↦ e.seq.toNat) =
      RingWindow.window klogBufSize (sectionIndices boot pre gaps j c) := by
  rw [(refines_section boot pre gaps j).retained_seq (wellFormed_section boot pre gaps j)
    (calls_section_lt hcalls hj), sectionIndices, RingWindow.window_map]

end Sections

/-! ## A snapshot over rings that grew between its passes -/

/-- `total` as a natural: what the counting pass's rings retain, in all. -/
theorem countPass_fst_eq_length (seen : Fin ncpu → KlogCpuBuf) :
    (countPass seen).1 = ((List.finRange ncpu).flatMap fun c ↦ (seen c).retained).length := by
  rw [countPass_fst, Fin.sum_univ_def, List.length_flatMap, Nat.cast_list_sum, List.map_map]
  congr 2
  funext c
  simp [KlogCpuBuf.retained, KlogCpuBuf.length_positions]

section Growth

/-! Each CPU's ring is seen by the counting pass as the window of the call numbers `p c`, and by
the copying pass as the window of `q c`, a strictly increasing extension of `p c`; no call number
is on two CPUs. -/

variable {seen copied : Fin ncpu → KlogCpuBuf} {p q : Fin ncpu → List ℕ}
  (hp : ∀ c, (seen c).retained.map (fun e ↦ e.seq.toNat) = RingWindow.window klogBufSize (p c))
  (hq : ∀ c, (copied c).retained.map (fun e ↦ e.seq.toNat) = RingWindow.window klogBufSize (q c))
  (hpq : ∀ c, p c <+: q c) (hinc : ∀ c, (q c).Pairwise (· < ·))
  (hnd : ((List.finRange ncpu).flatMap q).Nodup)

include hp hpq hnd in
/-- The `seq`s the counting pass sees are distinct. -/
theorem nodup_seen_seq :
    ((List.finRange ncpu).flatMap fun c ↦ (seen c).retained.map fun e ↦ e.seq.toNat).Nodup := by
  simp only [hp]
  refine List.Nodup.sublist ?_ hnd
  exact List.Sublist.flatMap_right _ fun c _ ↦
    (RingWindow.window_sublist _ (p c)).trans (hpq c).sublist

include hp hpq hnd in
/-- **No wrap in the threshold.** With distinct `seq`s in the seen rings and `max_entries ≥ 1`,
`min_seq + skip_count` stays below `2^32`. -/
theorem snapshotThreshold_toNat {m : ℕ} (hm : 1 ≤ m) :
    (snapshotThreshold seen m).toNat =
      (countPass seen).2.toNat + (((List.finRange ncpu).flatMap fun c ↦ (seen c).retained).length - m) := by
  set T := ((List.finRange ncpu).flatMap fun c ↦ (seen c).retained).length
  set μ := (countPass seen).2.toNat
  -- the seen `seq`s are `T` distinct values in `[min_seq, 2^32)`
  have hT : T ≤ 2 ^ 32 - μ := by
    have hlen : ((List.finRange ncpu).flatMap fun c ↦
        (seen c).retained.map fun e ↦ e.seq.toNat).length = T := by
      simp [T, List.length_flatMap]
    rw [← hlen]
    apply RingWindow.length_le_of_nodup_of_mem_Ico (m := μ) (k := 2 ^ 32 - μ) (nodup_seen_seq hp hpq hnd)
    intro x hx
    obtain ⟨c, -, hx⟩ := List.mem_flatMap.mp hx
    obtain ⟨e, he, rfl⟩ := List.mem_map.mp hx
    have hle := UInt32.le_iff_toNat_le.mp (countPass_snd_le seen he)
    have hlt := e.seq.toNat_lt
    omega
  have hμ := (countPass seen).2.toNat_lt
  have hskip : (if (countPass seen).1 > (m : ℤ) then (countPass seen).1 - m else 0) =
      ((T - m : ℕ) : ℤ) := by
    rw [countPass_fst_eq_length]
    split_ifs <;> omega
  rw [snapshotThreshold, hskip, UInt32.toNat_add, toNat_ofInt_natCast (by omega)]
  exact Nat.mod_eq_of_lt (by omega)

include hp hq hpq hinc hnd in
/-- **The stale threshold never under-delivers.** The copying pass finds at least
`min(total, max_entries)` entries at or above the threshold of the counting pass. -/
theorem min_le_length_selected {m : ℕ} (hm : 1 ≤ m) :
    min ((List.finRange ncpu).flatMap fun c ↦ (seen c).retained).length m ≤
      (selected copied (snapshotThreshold seen m)).length := by
  set T := ((List.finRange ncpu).flatMap fun c ↦ (seen c).retained).length
  have hTp : ((List.finRange ncpu).flatMap fun c ↦
      RingWindow.window klogBufSize (p c)).length = T := by
    simp only [← hp, T, List.length_flatMap, List.length_map]
  -- `min_seq` is at most every value the counting pass saw
  have hmin : ∀ c ∈ List.finRange ncpu, ∀ x ∈ RingWindow.window klogBufSize (p c),
      (countPass seen).2.toNat ≤ x := by
    intro c _ x hx
    rw [← hp] at hx
    obtain ⟨e, he, rfl⟩ := List.mem_map.mp hx
    exact UInt32.le_iff_toNat_le.mp (countPass_snd_le seen he)
  have hcount := RingWindow.length_sub_le_countP_window (N := klogBufSize) (k := T - m)
    (List.finRange ncpu) (fun c _ ↦ hpq c) (fun c _ ↦ hinc c) hnd hmin
  have hsel : (selected copied (snapshotThreshold seen m)).length =
      ((List.finRange ncpu).flatMap fun c ↦ RingWindow.window klogBufSize (q c)).countP
        fun x ↦ (countPass seen).2.toNat + (T - m) ≤ x := by
    rw [← List.length_map (fun e ↦ e.seq.toNat), map_seq_selected, snapshotThreshold_toNat hp hpq hnd hm,
      List.countP_eq_length_filter, List.filter_flatMap]
    simp only [hq]
    rfl
  rw [hsel]
  rw [hTp] at hcount
  omega

include hq hnd in
/-- The `seq`s the copying pass keeps are distinct. -/
theorem nodup_selected_seq (thr : UInt32) :
    ((selected copied thr).map fun e ↦ e.seq.toNat).Nodup := by
  rw [map_seq_selected]
  simp only [hq]
  refine List.Nodup.sublist ?_ hnd
  exact List.Sublist.flatMap_right _ fun c _ ↦
    List.filter_sublist.trans (RingWindow.window_sublist _ (q c))

end Growth

/-- What the copying pass keeps was retained by its ring when that ring was copied. -/
theorem mem_selected {copied : Fin ncpu → KlogCpuBuf} {thr : UInt32} {e : KlogEntry}
    (he : e ∈ selected copied thr) :
    ∃ (c : Fin ncpu) (k : ℕ), (copied c).Retains k ∧ (copied c).slot k = e := by
  obtain ⟨c, -, he⟩ := List.mem_flatMap.mp he
  obtain ⟨k, hk, rfl⟩ := List.mem_map.mp (List.mem_of_mem_filter he)
  exact ⟨c, k, ((copied c).mem_positions k).mp hk, rfl⟩

/-! ## The snapshot -/

section Snapshot

variable {boot : LogCall} {pre : List KlogOp} {gaps : ℕ → List LogCall} {buf : List KlogEntry}
  {m : ℕ} (hm : m ≤ buf.length) (h32 : buf.length < 2 ^ 32)
  (hcalls : 1 + pre.countP KlogOp.isLog + (sectionCalls gaps (2 * ncpu - 1)).length < 2 ^ 32)
include hm h32 hcalls

/-- **A snapshot that counts nothing faults**, whatever is logged during it. `min_seq` stays
`0xFFFFFFFF`, which no call number below `2^32 - 1` reaches, so the copying pass copies nothing
and the sort runs off `buf`. -/
theorem klogSnapshotInterleaved_eq_none_of_total_eq_zero
    (hT : (countPass (sectionSeen (klogRun (klogInit boot) pre) gaps)).1 = 0) :
    klogSnapshotInterleaved (klogRun (klogInit boot) pre) gaps buf m = none := by
  set s := klogRun (klogInit boot) pre
  set seen := sectionSeen s gaps
  have hnil : ∀ c, (seen c).retained = [] := by
    intro c
    rw [countPass_fst_eq_length, Nat.cast_eq_zero, List.length_eq_zero_iff,
      List.flatMap_eq_nil_iff] at hT
    exact hT c (List.mem_finRange c)
  have hmin : (countPass seen).2 = 0xFFFFFFFF := by
    rcases countPass_snd_cases seen with h | ⟨c, e, he, -⟩
    · exact h
    · simp [hnil c] at he
  have hthr : snapshotThreshold seen m = 0xFFFFFFFF := by
    rw [snapshotThreshold, hmin, hT, if_neg (by omega)]
    decide
  -- every call number is below `2^32 - 1`, so no copied entry reaches the threshold
  have hsel : selected (sectionCopied s gaps) (snapshotThreshold seen m) = [] := by
    rw [hthr, selected, List.flatMap_eq_nil_iff]
    intro c _
    have hj : ncpu + c.val ≤ 2 * ncpu - 1 := by
      have := c.isLt
      omega
    rw [atOrAbove, List.filter_eq_nil_iff]
    intro e he hle
    have hx : e.seq.toNat ∈ RingWindow.window klogBufSize (sectionIndices boot pre gaps (ncpu + c) c) := by
      rw [← retained_seq_section hcalls hj c]
      exact List.mem_map_of_mem he
    obtain ⟨r, hr, hidx⟩ := List.mem_map.mp (RingWindow.mem_of_mem_window hx)
    have hbelow := (wellFormed_section boot pre gaps (ncpu + c)).below c r hr
    have hlt : (sectionHistory boot pre gaps (ncpu + c)).calls < 2 ^ 32 := calls_section_lt hcalls hj
    have hge := UInt32.le_iff_toNat_le.mp (of_decide_eq_true hle)
    simp only [UInt32.reduceToNat] at hge
    omega
  exact (klogSnapshotOf_spec seen (sectionCopied s gaps) hm h32).1 (by rw [hsel, List.take_nil])

/-- **A snapshot that counts something** returns between `min(total, max_entries)` and
`max_entries` entries, in strictly increasing `seq` order, each retained by its CPU's ring, with
that CPU in its `cpu` field, when the copying pass read that ring. -/
theorem klogSnapshotInterleaved_spec_of_total_pos (hm1 : 1 ≤ m)
    (hT : 0 < (countPass (sectionSeen (klogRun (klogInit boot) pre) gaps)).1) :
    ∃ count buf', klogSnapshotInterleaved (klogRun (klogInit boot) pre) gaps buf m =
        some (count, buf') ∧
      min (countPass (sectionSeen (klogRun (klogInit boot) pre) gaps)).1 m ≤ count ∧ count ≤ m ∧
      (buf'.take count.toNat).Pairwise (fun a b ↦ a.seq.toNat < b.seq.toNat) ∧
      ∀ e ∈ buf'.take count.toNat, ∃ (c : Fin ncpu) (k : ℕ),
        (sectionCopied (klogRun (klogInit boot) pre) gaps c).Retains k ∧
        (sectionCopied (klogRun (klogInit boot) pre) gaps c).slot k = e ∧
        e.cpu = UInt32.ofNat c := by
  set s := klogRun (klogInit boot) pre
  set seen := sectionSeen s gaps
  set copied := sectionCopied s gaps
  have hc : ∀ c : Fin ncpu, c.val ≤ 2 * ncpu - 1 ∧ ncpu + c.val ≤ 2 * ncpu - 1 := by
    intro c
    have := c.isLt
    omega
  -- the rings each pass saw, read as windows of the call numbers logged by then
  have hp : ∀ c, (seen c).retained.map (fun e ↦ e.seq.toNat) =
      RingWindow.window klogBufSize (sectionIndices boot pre gaps c c) :=
    fun c ↦ retained_seq_section hcalls (hc c).1 c
  have hq : ∀ c, (copied c).retained.map (fun e ↦ e.seq.toNat) =
      RingWindow.window klogBufSize (sectionIndices boot pre gaps (ncpu + c) c) :=
    fun c ↦ retained_seq_section hcalls (hc c).2 c
  have hpq : ∀ c : Fin ncpu,
      sectionIndices boot pre gaps c c <+: sectionIndices boot pre gaps (ncpu + c) c :=
    fun c ↦ sectionIndices_isPrefix_of_le boot pre gaps (by omega) c
  have hsel := min_le_length_selected hp hq hpq
    (fun c ↦ sectionIndices_increasing boot pre gaps (ncpu + c) c)
    (nodup_copiedIndices boot pre gaps) hm1
  -- so the copying pass keeps at least one entry, and the sort has something to sort
  set sel := (selected copied (snapshotThreshold seen m)).take m
  have hlen : sel.length = min m (selected copied (snapshotThreshold seen m)).length :=
    List.length_take
  have htotal := countPass_fst_eq_length seen
  have hne : sel ≠ [] := by
    rw [← List.length_pos_iff, hlen]
    omega
  obtain ⟨-, hspec⟩ := klogSnapshotOf_spec seen copied hm h32
  obtain ⟨buf', hsnap, hperm, hsorted, -⟩ := hspec hne
  refine ⟨sel.length, buf', hsnap, ?_, ?_, ?_, ?_⟩
  · rw [htotal]
    omega
  · omega
  · -- sorted by `seq` and distinct in `seq`, so strictly increasing
    rw [Int.toNat_natCast]
    have hnd : ((buf'.take sel.length).map fun e ↦ e.seq.toNat).Nodup :=
      (hperm.map _).nodup_iff.mpr (List.Nodup.sublist ((List.take_sublist m _).map _)
        (nodup_selected_seq hq (nodup_copiedIndices boot pre gaps) _))
    exact (hsorted.and (List.pairwise_map.mp hnd)).imp fun h ↦ lt_of_le_of_ne h.1 h.2
  · intro e he
    rw [Int.toNat_natCast] at he
    obtain ⟨c, k, hk, rfl⟩ := mem_selected (List.mem_of_mem_take (hperm.mem_iff.mp he))
    refine ⟨c, k, hk, rfl, ?_⟩
    -- the copying section's ring holds its CPU's log, whose records carry that CPU
    have hr := refines_section boot pre gaps (ncpu + c)
    have hw := wellFormed_section boot pre gaps (ncpu + c)
    obtain ⟨hwin, hlt⟩ := (hr.retains_iff hw (calls_section_lt hcalls (hc c).2) c k).mp hk
    exact hr.cpu_slot hw c hwin hlt

end Snapshot

/-! ## Runs of logging calls -/

/-- With no `klog_clear` in the run, the boot CPU's log keeps the record of `klog_init`'s call at
every section: logging only appends. -/
theorem sectionIndices_boot_ne_nil {boot : LogCall} (hboot : boot.cpu < ncpu) (pre : List LogCall)
    (gaps : ℕ → List LogCall) (j : ℕ) :
    sectionIndices boot (pre.map KlogOp.log) gaps j ⟨boot.cpu, hboot⟩ ≠ [] := by
  have hpre := History.logs_prefix_run_log ⟨boot.cpu, hboot⟩ (History.init boot)
    (pre ++ sectionCalls gaps j)
  have hinit : (History.init boot).logs ⟨boot.cpu, hboot⟩ = [⟨0, initCall boot⟩] := by
    rw [History.init_of_lt boot hboot]
    simp
  rw [List.map_append, hinit] at hpre
  rw [sectionIndices, sectionHistory, Ne, List.map_eq_nil_iff]
  intro hnil
  rw [hnil] at hpre
  exact List.cons_ne_nil _ _ (List.prefix_nil.mp hpre)

/-- With no `klog_clear` in the run, the counting pass counts at least the boot CPU's entry. -/
theorem countPass_sectionSeen_pos {boot : LogCall} (hboot : boot.cpu < ncpu) (pre : List LogCall)
    (gaps : ℕ → List LogCall) (hcalls : 1 + (pre.map KlogOp.log).countP KlogOp.isLog +
      (sectionCalls gaps (2 * ncpu - 1)).length < 2 ^ 32) :
    0 < (countPass (sectionSeen (klogRun (klogInit boot) (pre.map KlogOp.log)) gaps)).1 := by
  set c₀ : Fin ncpu := ⟨boot.cpu, hboot⟩
  -- the boot CPU's counting section sees the window of a log that is not empty
  have hwin := @retained_seq_section boot _ gaps hcalls c₀ (by have := c₀.isLt; omega) c₀
  have hne :
      (sectionSeen (klogRun (klogInit boot) (pre.map KlogOp.log)) gaps c₀).retained ≠ [] := by
    intro hnil
    apply RingWindow.window_ne_nil (N := klogBufSize) (by decide)
      (sectionIndices_boot_ne_nil hboot pre gaps c₀)
    rw [← hwin]
    exact congrArg (List.map _) hnil
  rw [countPass_fst_eq_length, Nat.cast_pos, List.length_pos_iff, Ne, List.flatMap_eq_nil_iff]
  exact fun hall ↦ hne (hall c₀ (List.mem_finRange _))

/-- **`klog_snapshot` among concurrent logging calls.** Started on a store that `klog_init` on a
CPU below `NCPU` and the logging calls `pre` left, with any calls logged between its `2 * NCPU`
locked sections and fewer than `2^32` calls in all, `klog_snapshot(buf, max_entries)` with
`1 ≤ max_entries ≤ |buf|` returns a count between `min(total, max_entries)` and `max_entries`,
`total` what the counting pass counted, and the entries it returns are in strictly increasing
`seq` order, each retained by its CPU's ring, with that CPU in its `cpu` field, when the copying
pass read that ring. Nothing in the kernel calls `klog_clear`, so these are its runs. -/
theorem snapshot_interleaved_bounds (boot : LogCall) (hboot : boot.cpu < ncpu)
    (pre : List LogCall) (gaps : ℕ → List LogCall) {buf : List KlogEntry} {m : ℕ} (hm1 : 1 ≤ m)
    (hm : m ≤ buf.length) (h32 : buf.length < 2 ^ 32)
    (hcalls : 1 + pre.length + (sectionCalls gaps (2 * ncpu - 1)).length < 2 ^ 32) :
    ∃ count buf', klogSnapshotInterleaved (klogRun (klogInit boot) (pre.map KlogOp.log)) gaps buf
        m = some (count, buf') ∧
      min (countPass (sectionSeen (klogRun (klogInit boot) (pre.map KlogOp.log)) gaps)).1 m ≤
        count ∧ count ≤ m ∧
      (buf'.take count.toNat).Pairwise (fun a b ↦ a.seq.toNat < b.seq.toNat) ∧
      ∀ e ∈ buf'.take count.toNat, ∃ (c : Fin ncpu) (k : ℕ),
        (sectionCopied (klogRun (klogInit boot) (pre.map KlogOp.log)) gaps c).Retains k ∧
        (sectionCopied (klogRun (klogInit boot) (pre.map KlogOp.log)) gaps c).slot k = e ∧
        e.cpu = UInt32.ofNat c := by
  have hcalls' : 1 + (pre.map KlogOp.log).countP KlogOp.isLog +
      (sectionCalls gaps (2 * ncpu - 1)).length < 2 ^ 32 := by
    rwa [countP_isLog_map_log]
  exact klogSnapshotInterleaved_spec_of_total_pos hm h32 hcalls' hm1
    (countPass_sectionSeen_pos hboot pre gaps hcalls')

/-- After `klog_init` on CPU 0 and a call on CPU 1, a snapshot into `64` entries during which CPU
0 logs once more, between the counting sections of CPUs 2 and 3. -/
theorem snapshot_interleaved_bounds_two_cpus :
    (fixedCall 0).cpu < ncpu ∧ 1 ≤ 64 ∧ 64 ≤ (List.replicate 64 KlogEntry.zero).length ∧
    (List.replicate 64 KlogEntry.zero).length < 2 ^ 32 ∧
    1 + [fixedCall 1].length +
      (sectionCalls (fun j ↦ if j = 3 then [fixedCall 0] else []) (2 * ncpu - 1)).length < 2 ^ 32 ∧
    ∃ count buf', klogSnapshotInterleaved (klogRun (klogInit (fixedCall 0))
        ([fixedCall 1].map KlogOp.log)) (fun j ↦ if j = 3 then [fixedCall 0] else [])
        (List.replicate 64 KlogEntry.zero) 64 = some (count, buf') ∧
      min (countPass (sectionSeen (klogRun (klogInit (fixedCall 0)) ([fixedCall 1].map KlogOp.log))
        (fun j ↦ if j = 3 then [fixedCall 0] else []))).1 64 ≤ count ∧ count ≤ 64 ∧
      (buf'.take count.toNat).Pairwise (fun a b ↦ a.seq.toNat < b.seq.toNat) ∧
      ∀ e ∈ buf'.take count.toNat, ∃ (c : Fin ncpu) (k : ℕ),
        (sectionCopied (klogRun (klogInit (fixedCall 0)) ([fixedCall 1].map KlogOp.log))
          (fun j ↦ if j = 3 then [fixedCall 0] else []) c).Retains k ∧
        (sectionCopied (klogRun (klogInit (fixedCall 0)) ([fixedCall 1].map KlogOp.log))
          (fun j ↦ if j = 3 then [fixedCall 0] else []) c).slot k = e ∧
        e.cpu = UInt32.ofNat c :=
  ⟨by decide, by decide, by simp, by simp, by decide,
    snapshot_interleaved_bounds (fixedCall 0) (by decide) [fixedCall 1]
      (fun j ↦ if j = 3 then [fixedCall 0] else []) (by decide) (by simp) (by simp) (by decide)⟩

/-! ## With nothing logged during it -/

theorem sectionCalls_const_nil (j : ℕ) : sectionCalls (fun _ ↦ []) j = [] := by
  simp [sectionCalls]

theorem sectionSeen_const_nil (s : KlogState) : sectionSeen s (fun _ ↦ []) = s.cpuLogs := by
  funext c
  simp only [sectionSeen, sectionState, sectionCalls_const_nil, List.map_nil, klogRun_nil]

theorem sectionCopied_const_nil (s : KlogState) : sectionCopied s (fun _ ↦ []) = s.cpuLogs := by
  funext c
  simp only [sectionCopied, sectionState, sectionCalls_const_nil, List.map_nil, klogRun_nil]

/-- With no call between its sections, the snapshot reads one store throughout. -/
theorem klogSnapshotInterleaved_const_nil (s : KlogState) (buf : List KlogEntry)
    (maxEntries : ℤ) :
    klogSnapshotInterleaved s (fun _ ↦ []) buf maxEntries = klogSnapshot s buf maxEntries := by
  rw [klogSnapshotInterleaved, sectionSeen_const_nil, sectionCopied_const_nil]
  rfl

section Reachable

variable {boot : LogCall} {ops : List KlogOp} (hcalls : 1 + ops.countP KlogOp.isLog < 2 ^ 32)
include hcalls

theorem calls_const_nil :
    1 + ops.countP KlogOp.isLog + (sectionCalls (fun _ ↦ []) (2 * ncpu - 1)).length < 2 ^ 32 := by
  rw [sectionCalls_const_nil, List.length_nil, Nat.add_zero]
  exact hcalls

/-- **The snapshot of a reachable store** that retains something, with nothing logged during
it: between `min(R, max_entries)` and `max_entries` entries, `R` the retained count, strictly
increasing in `seq`, each retained by its CPU's ring. -/
theorem klogSnapshot_spec_of_total_pos {buf : List KlogEntry} {m : ℕ} (hm1 : 1 ≤ m)
    (hm : m ≤ buf.length) (h32 : buf.length < 2 ^ 32)
    (hT : 0 < (countPass (klogRun (klogInit boot) ops).cpuLogs).1) :
    ∃ count buf', klogSnapshot (klogRun (klogInit boot) ops) buf m = some (count, buf') ∧
      min (countPass (klogRun (klogInit boot) ops).cpuLogs).1 m ≤ count ∧ count ≤ m ∧
      (buf'.take count.toNat).Pairwise (fun a b ↦ a.seq.toNat < b.seq.toNat) ∧
      ∀ e ∈ buf'.take count.toNat, ∃ (c : Fin ncpu) (k : ℕ),
        ((klogRun (klogInit boot) ops).cpuLogs c).Retains k ∧
        ((klogRun (klogInit boot) ops).cpuLogs c).slot k = e ∧ e.cpu = UInt32.ofNat c := by
  have h := klogSnapshotInterleaved_spec_of_total_pos hm h32 (calls_const_nil hcalls) hm1
    (by rwa [sectionSeen_const_nil])
  rwa [klogSnapshotInterleaved_const_nil, sectionSeen_const_nil, sectionCopied_const_nil] at h

/-- The snapshot of a reachable store that retains nothing faults. -/
theorem klogSnapshot_eq_none_of_total_eq_zero {buf : List KlogEntry} {m : ℕ}
    (hm : m ≤ buf.length) (h32 : buf.length < 2 ^ 32)
    (hT : (countPass (klogRun (klogInit boot) ops).cpuLogs).1 = 0) :
    klogSnapshot (klogRun (klogInit boot) ops) buf m = none := by
  rw [← klogSnapshotInterleaved_const_nil]
  exact klogSnapshotInterleaved_eq_none_of_total_eq_zero hm h32 (calls_const_nil hcalls)
    (by rwa [sectionSeen_const_nil])

/-- In a reachable store, the entries the copying pass keeps carry distinct `seq`s. -/
theorem nodup_selected_seq_reachable (thr : UInt32) :
    ((selected (klogRun (klogInit boot) ops).cpuLogs thr).map fun e ↦ e.seq.toNat).Nodup := by
  have hr := refines_reachable boot ops
  have hw := wellFormed_reachable boot ops
  have hlt := (calls_reachable_le boot ops).trans_lt hcalls
  refine nodup_selected_seq (q := fun c ↦ ((historyRun (History.init boot) ops).logs c).map
    Record.index) (fun c ↦ ?_) hw.nodup_indices thr
  rw [hr.retained_seq hw hlt c, RingWindow.window_map]

end Reachable

end Klog

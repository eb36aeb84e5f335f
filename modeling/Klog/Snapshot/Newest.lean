import Klog.Snapshot.Concurrent

/-!
# What the store hands out while no ring has wrapped

`klog_snapshot` picks the entries to return by a threshold on `seq`, `min_seq + skip_count`,
which treats the retained sequence numbers as consecutive. This file proves where that design
holds, and what the snapshot returns there.

## The invariant

Every call that takes a sequence number appends a record to its CPU's log, and a `klog_clear`
whose sections run back to back empties all logs without resetting `global_seq`. So in the runs
where every `klog_clear` runs whole (`WholeClears`), the records carry exactly the last `n` call
numbers of the run, each once, `n` their number (`History.Recent`). While no CPU has logged more
than `256` entries since the last clear, the rings retain all of these records; below `2^32`
calls their `seq`s are their call numbers, so the retained `seq`s are
`global_seq - R, …, global_seq - 1`, each once, `R` the number retained
(`retained_seqs_last_issued`).

A call that takes its number between two sections of a `klog_clear` breaks the invariant: when
it logs on a ring already reset, its record survives while the records of calls before it on
rings still to be reset go, and the retained `seq`s have a gap below `global_seq`.

## The snapshot

On consecutive `seq`s the threshold cuts exactly the oldest `R - max_entries`, and the snapshot
returns the newest `min(R, max_entries)` entries in order (`snapshot_returns_newest`). Whatever
the rings hold, a snapshot whose `max_entries` has room for everything retained returns all of it
in `seq` order (`snapshot_returns_all`): the threshold is then `min_seq` itself.
-/

namespace Klog

/-! ## Appending to one of several lists -/

/-- Appending `x` to the list `f i` appends it, up to order, to the concatenation of the lists
over distinct indices among which is `i`. -/
theorem flatMap_update_append_perm {ι α : Type*} [DecidableEq ι] (f : ι → List α) (i : ι)
    (x : α) : ∀ {cs : List ι}, cs.Nodup → i ∈ cs →
      (cs.flatMap (Function.update f i (f i ++ [x]))).Perm (cs.flatMap f ++ [x])
  | [], _, hi => absurd hi List.not_mem_nil
  | c :: cs, hnd, hi => by
    obtain ⟨hnot, hnd'⟩ := List.nodup_cons.mp hnd
    rw [List.flatMap_cons, List.flatMap_cons, List.append_assoc]
    by_cases hc : c = i
    · -- `x` goes after `f i`; the other lists are not updated
      subst hc
      have hrest : cs.flatMap (Function.update f c (f c ++ [x])) = cs.flatMap f :=
        List.flatMap_congr fun d hd ↦ Function.update_of_ne (ne_of_mem_of_not_mem hd hnot) _ _
      rw [Function.update_self, hrest, List.append_assoc]
      exact List.Perm.append_left _ List.perm_append_comm
    · rw [Function.update_of_ne hc]
      exact (flatMap_update_append_perm f i x hnd'
        ((List.mem_cons.mp hi).resolve_left (Ne.symm hc))).append_left _

/-- Among consecutive numbers, those at least `b` are the numbers from `b` on. -/
theorem filter_range'_le {a n b : ℕ} (hab : a ≤ b) (hb : b ≤ a + n) :
    (List.range' a n).filter (b ≤ ·) = List.range' b (a + n - b) := by
  have hsplit : List.range' a n = List.range' a (b - a) ++ List.range' b (a + n - b) := by
    have h := List.range'_append_1 (s := a) (m := b - a) (n := a + n - b)
    rw [show a + (b - a) = b by omega, show b - a + (a + n - b) = n by omega] at h
    exact h.symm
  rw [hsplit, List.filter_append, List.filter_eq_nil_iff.mpr, List.nil_append,
    List.filter_eq_self.mpr]
  · -- from `b` on, every number passes
    intro x hx
    simpa using (List.mem_range'_1.mp hx).1
  · -- below `b`, none does
    intro x hx
    have hlt := (List.mem_range'_1.mp hx).2
    simp only [decide_eq_true_eq]
    omega

/-! ## The records since the last clear -/

/-- The call numbers of the records since the last clear, CPU by CPU. -/
def History.indices (h : History) : List ℕ :=
  (List.finRange ncpu).flatMap fun c ↦ (h.logs c).map Record.index

/-- A logging call on a CPU adds its call number to the records. -/
theorem History.indices_step_log_perm (h : History) (call : LogCall) (hc : call.cpu < ncpu) :
    (h.step (.log call)).indices.Perm (h.indices ++ [h.calls]) := by
  rw [h.step_log_of_lt call hc, History.indices, History.indices]
  have hfun : (fun c ↦ (Function.update h.logs ⟨call.cpu, hc⟩
        (h.logs ⟨call.cpu, hc⟩ ++ [⟨h.calls, call⟩]) c).map Record.index) =
      Function.update (fun c ↦ (h.logs c).map Record.index) ⟨call.cpu, hc⟩
        ((h.logs ⟨call.cpu, hc⟩).map Record.index ++ [h.calls]) := by
    funext c
    by_cases hcc : c = ⟨call.cpu, hc⟩
    · subst hcc
      simp
    · simp [Function.update_of_ne hcc]
  rw [hfun]
  exact flatMap_update_append_perm _ _ _ (List.nodup_finRange ncpu) (List.mem_finRange _)

/-- **The records since the last clear are the last calls of the run**: their call numbers are
`calls - n, …, calls - 1`, each once, `n` the number of records. -/
structure History.Recent (h : History) : Prop where
  /-- No more records than calls. -/
  le : h.indices.length ≤ h.calls
  /-- The call numbers, up to order. -/
  perm : h.indices.Perm (List.range' (h.calls - h.indices.length) h.indices.length)

/-- **The logging step.** A call adds the next call number at the end of the range. -/
theorem History.Recent.step_log {h : History} (hrec : h.Recent) (call : LogCall) :
    (h.step (.log call)).Recent := by
  by_cases hc : call.cpu < ncpu
  swap
  · rwa [h.step_log_of_le call (by omega)]
  have hp := h.indices_step_log_perm call hc
  have hlen : (h.step (.log call)).indices.length = h.indices.length + 1 := by
    rw [hp.length_eq, List.length_append, List.length_singleton]
  have hcalls : (h.step (.log call)).calls = h.calls + 1 := by
    rw [h.step_log_of_lt call hc]
  have hle := hrec.le
  refine ⟨by omega, ?_⟩
  rw [hlen, hcalls, show h.calls + 1 - (h.indices.length + 1) = h.calls - h.indices.length by omega,
    List.range'_1_concat, show h.calls - h.indices.length + h.indices.length = h.calls by omega]
  exact hp.trans (hrec.perm.append_right _)

/-- **A whole clear.** After all sections of a `klog_clear` in a row there are no records, which
are trivially the last none. -/
theorem History.recent_clear (h : History) : (historyRun h klogClearOps).Recent := by
  rw [historyRun_klogClearOps]
  exact ⟨by simp [History.indices], by simp [History.indices]⟩

/-- **The run.** Along a run whose clears run whole, the records stay the last calls. -/
theorem History.Recent.run {h : History} (hrec : h.Recent) {ops : List KlogOp}
    (hops : WholeClears ops) : (historyRun h ops).Recent := by
  induction hops generalizing h with
  | nil => exact hrec
  | log call _ ih => exact ih (hrec.step_log call)
  | clear _ ih =>
    rw [historyRun_append]
    exact ih (History.recent_clear h)

theorem History.recent_init (boot : LogCall) : (History.init boot).Recent :=
  History.Recent.step_log ⟨by simp [History.indices], by simp [History.indices]⟩ _

theorem recent_reachable (boot : LogCall) {ops : List KlogOp} (hops : WholeClears ops) :
    (historyRun (History.init boot) ops).Recent :=
  (History.recent_init boot).run hops

/-! ## The retained entries while no ring has wrapped -/

/-- Every entry the rings retain, CPU by CPU, in the order the copying pass meets them. -/
def retainedEntries (rings : Fin ncpu → KlogCpuBuf) : List KlogEntry :=
  (List.finRange ncpu).flatMap fun c ↦ (rings c).retained

/-- Below `2^32` calls, `global_seq` is the number of calls. -/
theorem Refines.globalSeq_toNat_eq {H : History} {s : KlogState} (hr : Refines H s)
    (hcalls : H.calls < 2 ^ 32) : s.globalSeq.toNat = H.calls := by
  rw [hr.globalSeq, Nat.mod_eq_of_lt hcalls]

/-- The copying pass keeps retained entries only. -/
theorem selected_sublist (rings : Fin ncpu → KlogCpuBuf) (thr : UInt32) :
    (selected rings thr).Sublist (retainedEntries rings) :=
  List.Sublist.flatMap_right _ fun _ _ ↦ List.filter_sublist

section NoWrap

variable {H : History} {s : KlogState} (hr : Refines H s) (hw : H.WellFormed)
  (hcalls : H.calls < 2 ^ 32) (hfit : ∀ c, (s.cpuLogs c).head.toNat ≤ klogBufSize)
include hr hw hcalls hfit

/-- While no ring has wrapped, the rings retain every record since the last clear, and their
`seq`s are the records' call numbers. -/
theorem retainedEntries_seq_eq_indices :
    (retainedEntries s.cpuLogs).map (fun e ↦ e.seq.toNat) = H.indices := by
  rw [retainedEntries, List.map_flatMap, History.indices]
  refine List.flatMap_congr fun c _ ↦ ?_
  have hlen : (H.logs c).length ≤ klogBufSize := by
    have := hfit c
    rwa [hr.head_eq hw hcalls] at this
  rw [hr.retained_seq hw hcalls c, RingWindow.window_of_length_le hlen]

/-- The retained `seq`s are the last ones `global_seq` issued, each once. -/
theorem retainedEntries_seq_perm (hrec : H.Recent) :
    ((retainedEntries s.cpuLogs).map fun e ↦ e.seq.toNat).Perm
      (List.range' (s.globalSeq.toNat - (retainedEntries s.cpuLogs).length)
        (retainedEntries s.cpuLogs).length) := by
  have hseq := retainedEntries_seq_eq_indices hr hw hcalls hfit
  have hlen : (retainedEntries s.cpuLogs).length = H.indices.length := by
    rw [← hseq, List.length_map]
  rw [hseq, hlen, hr.globalSeq_toNat_eq hcalls]
  exact hrec.perm

/-- No more entries are retained than numbers were issued. -/
theorem length_retainedEntries_le (hrec : H.Recent) :
    (retainedEntries s.cpuLogs).length ≤ s.globalSeq.toNat := by
  have hseq := retainedEntries_seq_eq_indices hr hw hcalls hfit
  rw [hr.globalSeq_toNat_eq hcalls, ← List.length_map (fun e ↦ e.seq.toNat), hseq]
  exact hrec.le

/-- While no ring has wrapped, the threshold `min_seq + skip_count` is `global_seq` minus the
number of entries to return. -/
theorem snapshotThreshold_toNat_of_fit (hrec : H.Recent) {m : ℕ} (hm1 : 1 ≤ m)
    (hR : 0 < (retainedEntries s.cpuLogs).length) :
    (snapshotThreshold s.cpuLogs m).toNat =
      s.globalSeq.toNat - min (retainedEntries s.cpuLogs).length m := by
  have hperm := retainedEntries_seq_perm hr hw hcalls hfit hrec
  have hRG := length_retainedEntries_le hr hw hcalls hfit hrec
  -- `min_seq` is the oldest of the retained `seq`s, the start of the range
  have hmin : (countPass s.cpuLogs).2.toNat =
      s.globalSeq.toNat - (retainedEntries s.cpuLogs).length := by
    obtain ⟨e, he, hseq⟩ : ∃ e ∈ retainedEntries s.cpuLogs,
        e.seq.toNat = s.globalSeq.toNat - (retainedEntries s.cpuLogs).length := by
      have hmem := hperm.symm.subset (List.mem_range'_1.mpr ⟨le_rfl, by omega⟩)
      simpa using hmem
    obtain ⟨c, -, hec⟩ := List.mem_flatMap.mp he
    refine countPass_snd_toNat_eq s.cpuLogs hec hseq fun c' e' he' ↦ ?_
    have hmem : e'.seq.toNat ∈ List.range' (s.globalSeq.toNat - (retainedEntries s.cpuLogs).length)
        (retainedEntries s.cpuLogs).length :=
      hperm.subset (List.mem_map_of_mem (List.mem_flatMap.mpr ⟨c', List.mem_finRange c', he'⟩))
    exact (List.mem_range'_1.mp hmem).1
  have hp : ∀ c, (s.cpuLogs c).retained.map (fun e ↦ e.seq.toNat) =
      RingWindow.window klogBufSize ((H.logs c).map Record.index) := fun c ↦ by
    rw [hr.retained_seq hw hcalls c, RingWindow.window_map]
  have h := snapshotThreshold_toNat hp (fun c ↦ List.prefix_refl _) hw.nodup_indices hm1
  rw [h, hmin]
  change s.globalSeq.toNat - (retainedEntries s.cpuLogs).length +
    ((retainedEntries s.cpuLogs).length - m) = _
  omega

/-- While no ring has wrapped, the copying pass keeps exactly the `min(R, max_entries)` newest
`seq`s. -/
theorem selected_seq_perm (hrec : H.Recent) {m : ℕ} (hm1 : 1 ≤ m)
    (hR : 0 < (retainedEntries s.cpuLogs).length) :
    ((selected s.cpuLogs (snapshotThreshold s.cpuLogs m)).map fun e ↦ e.seq.toNat).Perm
      (List.range' (s.globalSeq.toNat - min (retainedEntries s.cpuLogs).length m)
        (min (retainedEntries s.cpuLogs).length m)) := by
  have hperm := retainedEntries_seq_perm hr hw hcalls hfit hrec
  have hRG := length_retainedEntries_le hr hw hcalls hfit hrec
  -- the threshold cuts the consecutive range where the newest `min(R, max_entries)` begin
  have hcut := hperm.filter (fun x ↦ decide
    (s.globalSeq.toNat - min (retainedEntries s.cpuLogs).length m ≤ x))
  have hk : s.globalSeq.toNat - (retainedEntries s.cpuLogs).length +
      (retainedEntries s.cpuLogs).length -
        (s.globalSeq.toNat - min (retainedEntries s.cpuLogs).length m) =
      min (retainedEntries s.cpuLogs).length m := by
    omega
  rw [filter_range'_le (by omega) (by omega), hk] at hcut
  rw [map_seq_selected, snapshotThreshold_toNat_of_fit hr hw hcalls hfit hrec hm1 hR,
    ← List.filter_flatMap, ← List.map_flatMap]
  exact hcut

/-- **The snapshot while no ring has wrapped.** It returns `k = min(R, max_entries)` entries: at
the front of `buf` the retained entries with `seq`s `global_seq - k, …, global_seq - 1`, in that
order, and the rest of `buf` as it was. -/
theorem klogSnapshot_newest (hrec : H.Recent) {buf : List KlogEntry} {m : ℕ} (hm1 : 1 ≤ m)
    (hm : m ≤ buf.length) (h32 : buf.length < 2 ^ 32)
    (hR : 0 < (retainedEntries s.cpuLogs).length) :
    ∃ buf', klogSnapshot s buf m =
        some (((min (retainedEntries s.cpuLogs).length m : ℕ) : ℤ), buf') ∧
      (buf'.take (min (retainedEntries s.cpuLogs).length m)).map (fun e ↦ e.seq.toNat) =
        List.range' (s.globalSeq.toNat - min (retainedEntries s.cpuLogs).length m)
          (min (retainedEntries s.cpuLogs).length m) ∧
      (∀ e ∈ buf'.take (min (retainedEntries s.cpuLogs).length m), e ∈ retainedEntries s.cpuLogs) ∧
      buf'.drop (min (retainedEntries s.cpuLogs).length m) =
        buf.drop (min (retainedEntries s.cpuLogs).length m) := by
  have hsel := selected_seq_perm hr hw hcalls hfit hrec hm1 hR
  set k := min (retainedEntries s.cpuLogs).length m with hkdef
  have hlen : (selected s.cpuLogs (snapshotThreshold s.cpuLogs m)).length = k := by
    rw [← List.length_map (fun e ↦ e.seq.toNat), hsel.length_eq, List.length_range']
  -- the copying pass keeps no more than `max_entries`, so the cut at `max_entries` keeps them all
  have htake : (selected s.cpuLogs (snapshotThreshold s.cpuLogs m)).take m =
      selected s.cpuLogs (snapshotThreshold s.cpuLogs m) :=
    List.take_of_length_le (by omega)
  obtain ⟨-, hspec⟩ := klogSnapshotOf_spec s.cpuLogs s.cpuLogs hm h32
  rw [htake, hlen] at hspec
  obtain ⟨buf', hsnap, hperm, hsorted, hdrop⟩ :=
    hspec (by rw [← List.length_pos_iff, hlen]; omega)
  refine ⟨buf', hsnap, ?_, fun e he ↦ ?_, hdrop⟩
  · -- sorted, and a rearrangement of a consecutive range: the range itself
    have hp := (hperm.map fun e ↦ e.seq.toNat).trans hsel
    exact hp.eq_of_pairwise' (List.pairwise_map.mpr hsorted) List.pairwise_le_range'
  · exact (selected_sublist _ _).subset (hperm.subset he)

end NoWrap

/-- **The retained entries carry the last sequence numbers issued.** In a store reachable from
`klog_init` after fewer than `2^32` calls, by a run in which no call falls between two sections
of a `klog_clear`, while no CPU has logged more than `256` entries since the last `klog_clear`,
the `seq`s of the entries the rings retain, over all CPUs, are
`global_seq - R, …, global_seq - 1`, each exactly once, `R` the number of entries retained. -/
theorem retained_seqs_last_issued (boot : LogCall) (ops : List KlogOp) (hclears : WholeClears ops)
    (hcalls : 1 + ops.countP KlogOp.isLog < 2 ^ 32)
    (hfit : ∀ c, ((klogRun (klogInit boot) ops).cpuLogs c).head.toNat ≤ klogBufSize) :
    ((retainedEntries (klogRun (klogInit boot) ops).cpuLogs).map fun e ↦ e.seq.toNat).Perm
      (List.range' ((klogRun (klogInit boot) ops).globalSeq.toNat -
          (retainedEntries (klogRun (klogInit boot) ops).cpuLogs).length)
        (retainedEntries (klogRun (klogInit boot) ops).cpuLogs).length) :=
  retainedEntries_seq_perm (refines_reachable boot ops) (wellFormed_reachable boot ops)
    ((calls_reachable_le boot ops).trans_lt hcalls) hfit (recent_reachable boot hclears)

/-- A run with one whole `klog_clear`: a call on CPU 1, a `klog_clear`, then calls on CPUs 1
and 0. -/
def clearedRun : List KlogOp :=
  .log (fixedCall 1) :: (klogClearOps ++ [.log (fixedCall 1), .log (fixedCall 0)])

theorem wholeClears_clearedRun : WholeClears clearedRun :=
  .log _ (.clear (.log _ (.log _ .nil)))

theorem retained_seqs_last_issued_cleared :
    WholeClears clearedRun ∧ 1 + clearedRun.countP KlogOp.isLog < 2 ^ 32 ∧
    (∀ c, ((klogRun (klogInit (fixedCall 0)) clearedRun).cpuLogs c).head.toNat ≤ klogBufSize) ∧
    ((retainedEntries (klogRun (klogInit (fixedCall 0)) clearedRun).cpuLogs).map
        fun e ↦ e.seq.toNat).Perm
      (List.range' ((klogRun (klogInit (fixedCall 0)) clearedRun).globalSeq.toNat -
          (retainedEntries (klogRun (klogInit (fixedCall 0)) clearedRun).cpuLogs).length)
        (retainedEntries (klogRun (klogInit (fixedCall 0)) clearedRun).cpuLogs).length) :=
  ⟨wholeClears_clearedRun, by decide, by decide,
    retained_seqs_last_issued _ _ wholeClears_clearedRun (by decide) (by decide)⟩

/-- A run with calls between the sections of a `klog_clear`: the section for CPU 0, calls on
CPUs 0 and 5, and the sections for CPUs 1 … 7. -/
def splitClearRun : List KlogOp :=
  .clearRing 0 :: .log (fixedCall 0) :: .log (fixedCall 5) ::
    (List.finRange ncpu).tail.map KlogOp.clearRing

-- Without whole clears the range has gaps: after `klog_init` and `splitClearRun` the rings retain
-- `seq` 1 alone while `global_seq` is 3.
example :
    ((retainedEntries (klogRun (klogInit (fixedCall 0)) splitClearRun).cpuLogs).map
        fun e ↦ e.seq.toNat) = [1] ∧
    (klogRun (klogInit (fixedCall 0)) splitClearRun).globalSeq = 3 := by
  decide

/-- **While no ring has wrapped, a snapshot returns the newest entries.** In a store reachable
from `klog_init` after fewer than `2^32` calls, by a run in which no call falls between two
sections of a `klog_clear`, in which every CPU has logged at most `256` entries since the last
`klog_clear` and some entry is retained, `klog_snapshot(buf,
max_entries)` with `1 ≤ max_entries ≤ |buf|` returns `k = min(R, max_entries)`, `R` the number
of entries retained: the first `k` entries of `buf` are then retained entries whose `seq`s are
the last `k` that `global_seq` issued, in increasing order, and the rest of `buf` is unchanged. -/
theorem snapshot_returns_newest (boot : LogCall) (ops : List KlogOp) (hclears : WholeClears ops)
    (hcalls : 1 + ops.countP KlogOp.isLog < 2 ^ 32)
    (hfit : ∀ c, ((klogRun (klogInit boot) ops).cpuLogs c).head.toNat ≤ klogBufSize)
    (hR : 0 < (retainedEntries (klogRun (klogInit boot) ops).cpuLogs).length)
    {buf : List KlogEntry} {m : ℕ} (hm1 : 1 ≤ m) (hm : m ≤ buf.length) (h32 : buf.length < 2 ^ 32) :
    ∃ buf', klogSnapshot (klogRun (klogInit boot) ops) buf m =
        some (((min (retainedEntries (klogRun (klogInit boot) ops).cpuLogs).length m : ℕ) : ℤ),
          buf') ∧
      (buf'.take (min (retainedEntries (klogRun (klogInit boot) ops).cpuLogs).length m)).map
          (fun e ↦ e.seq.toNat) =
        List.range' ((klogRun (klogInit boot) ops).globalSeq.toNat -
            min (retainedEntries (klogRun (klogInit boot) ops).cpuLogs).length m)
          (min (retainedEntries (klogRun (klogInit boot) ops).cpuLogs).length m) ∧
      (∀ e ∈ buf'.take (min (retainedEntries (klogRun (klogInit boot) ops).cpuLogs).length m),
        e ∈ retainedEntries (klogRun (klogInit boot) ops).cpuLogs) ∧
      buf'.drop (min (retainedEntries (klogRun (klogInit boot) ops).cpuLogs).length m) =
        buf.drop (min (retainedEntries (klogRun (klogInit boot) ops).cpuLogs).length m) :=
  klogSnapshot_newest (refines_reachable boot ops) (wellFormed_reachable boot ops)
    ((calls_reachable_le boot ops).trans_lt hcalls) hfit (recent_reachable boot hclears) hm1 hm h32
    hR

theorem snapshot_returns_newest_cleared :
    WholeClears clearedRun ∧ 1 + clearedRun.countP KlogOp.isLog < 2 ^ 32 ∧
    (∀ c, ((klogRun (klogInit (fixedCall 0)) clearedRun).cpuLogs c).head.toNat ≤ klogBufSize) ∧
    0 < (retainedEntries (klogRun (klogInit (fixedCall 0)) clearedRun).cpuLogs).length ∧
    1 ≤ 2 ∧ 2 ≤ (List.replicate 2 KlogEntry.zero).length ∧
    (List.replicate 2 KlogEntry.zero).length < 2 ^ 32 ∧
    ∃ buf', klogSnapshot (klogRun (klogInit (fixedCall 0)) clearedRun)
        (List.replicate 2 KlogEntry.zero) 2 =
        some (((min (retainedEntries (klogRun (klogInit (fixedCall 0)) clearedRun).cpuLogs).length
          2 : ℕ) : ℤ), buf') ∧
      (buf'.take (min (retainedEntries (klogRun (klogInit (fixedCall 0))
          clearedRun).cpuLogs).length 2)).map (fun e ↦ e.seq.toNat) =
        List.range' ((klogRun (klogInit (fixedCall 0)) clearedRun).globalSeq.toNat -
            min (retainedEntries (klogRun (klogInit (fixedCall 0)) clearedRun).cpuLogs).length 2)
          (min (retainedEntries (klogRun (klogInit (fixedCall 0)) clearedRun).cpuLogs).length 2) ∧
      (∀ e ∈ buf'.take (min (retainedEntries (klogRun (klogInit (fixedCall 0))
          clearedRun).cpuLogs).length 2),
        e ∈ retainedEntries (klogRun (klogInit (fixedCall 0)) clearedRun).cpuLogs) ∧
      buf'.drop (min (retainedEntries (klogRun (klogInit (fixedCall 0))
          clearedRun).cpuLogs).length 2) =
        (List.replicate 2 KlogEntry.zero).drop (min (retainedEntries (klogRun (klogInit
          (fixedCall 0)) clearedRun).cpuLogs).length 2) :=
  ⟨wholeClears_clearedRun, by decide, by decide, by decide, by decide, by decide, by decide,
    snapshot_returns_newest _ _ wholeClears_clearedRun (by decide) (by decide) (by decide)
      (by decide) (by decide) (by decide)⟩

/-! ## When everything fits -/

/-- With room for everything retained, `skip_count` is `0` and the copying pass keeps every
retained entry: none is below `min_seq`. -/
theorem selected_eq_retainedEntries_of_le (rings : Fin ncpu → KlogCpuBuf) {m : ℕ}
    (hRm : (retainedEntries rings).length ≤ m) :
    selected rings (snapshotThreshold rings m) = retainedEntries rings := by
  have hthr : snapshotThreshold rings m = (countPass rings).2 := by
    rw [snapshotThreshold, countPass_fst_eq_length, if_neg (by
      change ¬((retainedEntries rings).length : ℤ) > m
      omega), show UInt32.ofInt 0 = 0 from rfl, add_zero]
  rw [hthr, selected, retainedEntries]
  refine List.flatMap_congr fun c _ ↦ List.filter_eq_self.mpr fun e he ↦ ?_
  exact decide_eq_true (countPass_snd_le rings he)

/-- **A snapshot with room for everything returns everything.** For every store whose rings
retain `R ≥ 1` entries, `klog_snapshot(buf, max_entries)` with `R ≤ max_entries ≤ |buf|`
returns `R`, with all the retained entries at the front of `buf` in `seq` order and the rest of
`buf` unchanged. -/
theorem snapshot_returns_all (s : KlogState) {buf : List KlogEntry} {m : ℕ}
    (hR : 0 < (retainedEntries s.cpuLogs).length) (hRm : (retainedEntries s.cpuLogs).length ≤ m)
    (hm : m ≤ buf.length) (h32 : buf.length < 2 ^ 32) :
    ∃ buf', klogSnapshot s buf m = some (((retainedEntries s.cpuLogs).length : ℤ), buf') ∧
      (buf'.take (retainedEntries s.cpuLogs).length).Perm (retainedEntries s.cpuLogs) ∧
      (buf'.take (retainedEntries s.cpuLogs).length).Pairwise
        (fun a b ↦ a.seq.toNat ≤ b.seq.toNat) ∧
      buf'.drop (retainedEntries s.cpuLogs).length = buf.drop (retainedEntries s.cpuLogs).length := by
  obtain ⟨-, hspec⟩ := klogSnapshotOf_spec s.cpuLogs s.cpuLogs hm h32
  rw [selected_eq_retainedEntries_of_le s.cpuLogs hRm, List.take_of_length_le hRm] at hspec
  exact hspec (List.length_pos_iff.mp hR)

theorem snapshot_returns_all_boot :
    0 < (retainedEntries (klogRun (klogInit (fixedCall 0)) [.log (fixedCall 1)]).cpuLogs).length ∧
    (retainedEntries (klogRun (klogInit (fixedCall 0)) [.log (fixedCall 1)]).cpuLogs).length ≤ 64 ∧
    64 ≤ (List.replicate 64 KlogEntry.zero).length ∧
    (List.replicate 64 KlogEntry.zero).length < 2 ^ 32 ∧
    ∃ buf', klogSnapshot (klogRun (klogInit (fixedCall 0)) [.log (fixedCall 1)])
        (List.replicate 64 KlogEntry.zero) 64 = some (((retainedEntries
          (klogRun (klogInit (fixedCall 0)) [.log (fixedCall 1)]).cpuLogs).length : ℤ), buf') ∧
      (buf'.take (retainedEntries (klogRun (klogInit (fixedCall 0))
          [.log (fixedCall 1)]).cpuLogs).length).Perm
        (retainedEntries (klogRun (klogInit (fixedCall 0)) [.log (fixedCall 1)]).cpuLogs) ∧
      (buf'.take (retainedEntries (klogRun (klogInit (fixedCall 0))
          [.log (fixedCall 1)]).cpuLogs).length).Pairwise
        (fun a b ↦ a.seq.toNat ≤ b.seq.toNat) ∧
      buf'.drop (retainedEntries (klogRun (klogInit (fixedCall 0))
          [.log (fixedCall 1)]).cpuLogs).length =
        (List.replicate 64 KlogEntry.zero).drop (retainedEntries (klogRun (klogInit
          (fixedCall 0)) [.log (fixedCall 1)]).cpuLogs).length :=
  ⟨by decide, by decide, by decide, by decide,
    snapshot_returns_all _ (by decide) (by decide) (by decide) (by decide)⟩

end Klog

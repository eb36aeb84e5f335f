import Klog.Snapshot.Newest

/-!
# Which call an entry comes from

`klog_clear` resets each ring's `head` and leaves the slots as they are, so the rings still hold
the old entries after a clear, and a slot's message bytes past its NUL are those of whatever entry
was there before. Neither is visible: below `2^32` calls an entry the store retains shows exactly
what the call that took its sequence number wrote.

## The calls of a run

The calls that take a number are the logging calls on a CPU below `NCPU`, in order
(`numberedCalls`). The history's records are these calls with their positions
(`History.mem_logs_run`): a record in the logs after a stretch of a run is one it started with, or
the call of that stretch at its position among the stretch's numbered calls.

## Results

Every entry the rings retain is the view of the numbered call whose position is its `seq`
(`retained_entry_built_by_call`). Every entry a snapshot hands out after a `klog_clear` was
written by a call made after it, and carries a `seq` at least the `global_seq` of the moment of
the clear, where the clear's sections run back to back (`snapshot_after_clear_logged_after`).
-/

namespace Klog

/-! ## The calls of a run that take a number -/

/-- The call a step numbers: a logging call on a CPU below `NCPU`. -/
def KlogOp.numbered : KlogOp → Option LogCall
  | .log call => if call.cpu < ncpu then some call else none
  | .clearRing _ => none

/-- The calls of a run that take a sequence number, in the order they take it. -/
def numberedCalls (ops : List KlogOp) : List LogCall :=
  ops.filterMap KlogOp.numbered

theorem numberedCalls_cons (op : KlogOp) (ops : List KlogOp) :
    numberedCalls (op :: ops) = op.numbered.toList ++ numberedCalls ops := by
  cases h : op.numbered <;> simp [numberedCalls, h]

/-- A step adds to the number of calls exactly the calls it numbers. -/
theorem History.calls_step (h : History) (op : KlogOp) :
    (h.step op).calls = h.calls + op.numbered.toList.length := by
  cases op with
  | clearRing _ => rfl
  | log call =>
    by_cases hc : call.cpu < ncpu
    · simp [h.step_log_of_lt call hc, KlogOp.numbered, hc]
    · simp [h.step_log_of_le call (by omega), KlogOp.numbered, hc]

/-- **The step.** A record in the logs after a step was there before, or is the call the step
numbered, at the number of calls before it. -/
theorem History.mem_logs_step {h : History} {op : KlogOp} {c : Fin ncpu} {r : Record}
    (hr : r ∈ (h.step op).logs c) : r ∈ h.logs c ∨ r.index = h.calls ∧ op.numbered = some r.call := by
  cases op with
  | clearRing d =>
    -- a section only takes records away
    exact .inl ((h.logs_step_clearRing_sublist d c).subset hr)
  | log call =>
    by_cases hc : call.cpu < ncpu
    · rw [h.step_log_of_lt call hc] at hr
      dsimp only at hr
      by_cases hcc : c = ⟨call.cpu, hc⟩
      · -- the step's own CPU: the old log, and the new record at its end
        subst hcc
        rw [Function.update_self, List.mem_append, List.mem_singleton] at hr
        rcases hr with hr | rfl
        · exact .inl hr
        · exact .inr ⟨rfl, by simp [KlogOp.numbered, hc]⟩
      · rw [Function.update_of_ne hcc] at hr
        exact .inl hr
    · rw [h.step_log_of_le call (by omega)] at hr
      exact .inl hr

/-- **The run.** A record in the logs after the steps `ops` was there before them, or is the
call at its position, counted from the number of calls before them, among the calls `ops`
numbers. -/
theorem History.mem_logs_run :
    ∀ (ops : List KlogOp) {h : History} {c : Fin ncpu} {r : Record},
      r ∈ (historyRun h ops).logs c →
        r ∈ h.logs c ∨ h.calls ≤ r.index ∧ (numberedCalls ops)[r.index - h.calls]? = some r.call
  | [], _, _, _, hr => .inl hr
  | op :: ops, h, c, r, hr => by
    rw [historyRun_cons] at hr
    rw [numberedCalls_cons]
    rcases History.mem_logs_run ops hr with hr | ⟨hle, hget⟩
    · rcases History.mem_logs_step hr with hr | ⟨hidx, hnum⟩
      · exact .inl hr
      · -- the call this step numbered comes first among the calls of the stretch
        refine .inr ⟨hidx.ge, ?_⟩
        rw [hnum, hidx, Nat.sub_self]
        rfl
    · -- a later call: past the calls this step numbered
      rw [History.calls_step] at hle hget
      refine .inr ⟨by omega, ?_⟩
      rw [List.getElem?_append_right (by omega), ← hget]
      congr 1
      omega

/-! ## From a retained entry to its record -/

/-- Below `2^32` calls, an entry the rings retain shows a record of its CPU's log, and its `seq`
is the record's call number. -/
theorem Refines.exists_record {H : History} {s : KlogState} (hr : Refines H s) (hw : H.WellFormed)
    (hcalls : H.calls < 2 ^ 32) {e : KlogEntry} (he : e ∈ retainedEntries s.cpuLogs) :
    ∃ c, ∃ r ∈ H.logs c, e.view = r.view ∧ e.seq.toNat = r.index := by
  obtain ⟨c, -, hec⟩ := List.mem_flatMap.mp he
  have hview : e.view ∈ RingWindow.window klogBufSize ((H.logs c).map Record.view) := by
    rw [← hr.retained_view hw hcalls c]
    exact List.mem_map_of_mem hec
  obtain ⟨r, hmem, hr'⟩ := List.mem_map.mp (RingWindow.mem_of_mem_window hview)
  -- the record's number is below the number of calls, so its `seq` does not wrap
  have hlt : r.index < 2 ^ 32 := (hw.below c r hmem).trans hcalls
  have hseq : e.seq = UInt32.ofNat r.index := by
    rw [show e.seq = e.view.seq from rfl, ← hr']
    rfl
  refine ⟨c, r, hmem, hr'.symm, ?_⟩
  rw [hseq, UInt32.toNat_ofNat', Nat.mod_eq_of_lt hlt]

/-- What a snapshot hands out, the first `count` entries of its buffer, the rings retain. -/
theorem mem_retainedEntries_of_klogSnapshot {s : KlogState} {buf : List KlogEntry} {m : ℕ}
    (hm : m ≤ buf.length) (h32 : buf.length < 2 ^ 32) {count : ℤ} {buf' : List KlogEntry}
    (hsnap : klogSnapshot s buf m = some (count, buf')) :
    ∀ e ∈ buf'.take count.toNat, e ∈ retainedEntries s.cpuLogs := by
  obtain ⟨hnone, hsome⟩ := klogSnapshotOf_spec s.cpuLogs s.cpuLogs hm h32
  by_cases hsel : (selected s.cpuLogs (snapshotThreshold s.cpuLogs m)).take m = []
  · rw [klogSnapshot, hnone hsel] at hsnap
    cases hsnap
  obtain ⟨b, hb, hperm, -⟩ := hsome hsel
  rw [klogSnapshot, hb] at hsnap
  obtain ⟨rfl, rfl⟩ := Prod.mk.inj (Option.some.inj hsnap)
  intro e he
  rw [Int.toNat_natCast] at he
  exact (selected_sublist _ _).subset (List.mem_of_mem_take (hperm.subset he))

/-! ## Results -/

/-- **Every retained entry is what the call with its number wrote.** In every store reachable
from `klog_init` by fewer than `2^32` calls, each entry the rings retain shows the fields and the
message of the call that took its `seq`: the `seq`-th of the run's numbered calls, counting the
call `klog_init` makes. Two entries retained at any two moments of one run with the same `seq`
therefore show the same thing. -/
theorem retained_entry_built_by_call (boot : LogCall) (ops : List KlogOp)
    (hcalls : 1 + ops.countP KlogOp.isLog < 2 ^ 32) :
    ∀ e ∈ retainedEntries (klogRun (klogInit boot) ops).cpuLogs, ∃ call,
      (numberedCalls (.log (initCall boot) :: ops))[e.seq.toNat]? = some call ∧
        e.view = Record.view ⟨e.seq.toNat, call⟩ := by
  intro e he
  obtain ⟨c, r, hmem, hview, hseq⟩ := (refines_reachable boot ops).exists_record
    (wellFormed_reachable boot ops) ((calls_reachable_le boot ops).trans_lt hcalls) he
  -- the history of the run is the run's steps from empty logs and no calls
  have hrun : historyRun (History.init boot) ops =
      historyRun ⟨fun _ ↦ [], 0⟩ (.log (initCall boot) :: ops) := rfl
  rw [hrun] at hmem
  rcases History.mem_logs_run _ hmem with hnil | ⟨-, hget⟩
  · exact absurd hnil List.not_mem_nil
  · rw [Nat.sub_zero] at hget
    exact ⟨r.call, by rw [hseq, hget], by rw [hview, hseq]⟩

theorem retained_entry_built_by_call_split :
    1 + splitClearRun.countP KlogOp.isLog < 2 ^ 32 ∧
    0 < (retainedEntries (klogRun (klogInit (fixedCall 0)) splitClearRun).cpuLogs).length ∧
    ∀ e ∈ retainedEntries (klogRun (klogInit (fixedCall 0)) splitClearRun).cpuLogs,
      ∃ call, (numberedCalls (.log (initCall (fixedCall 0)) :: splitClearRun))[e.seq.toNat]? =
          some call ∧
        e.view = Record.view ⟨e.seq.toNat, call⟩ :=
  ⟨by decide, by decide, retained_entry_built_by_call _ _ (by decide)⟩

/-- **After `klog_clear`, the store hands out only what was logged after it.** In a run
`pre`, `klog_clear`, `post` from `klog_init` with fewer than `2^32` logging calls, where no call
falls between two sections of that `klog_clear` (`pre` and `post` may hold any steps), every entry
that a snapshot returns is the view of a call of `post`: the one whose position among the calls
`post` numbers is its `seq` minus the `global_seq` the clear saw, a difference that is never
negative. The entries logged before the clear, still in the slots, never come out. -/
theorem snapshot_after_clear_logged_after (boot : LogCall) (pre post : List KlogOp)
    (hcalls : 1 + (pre ++ klogClearOps ++ post).countP KlogOp.isLog < 2 ^ 32)
    {buf : List KlogEntry} {m : ℕ} (hm : m ≤ buf.length) (h32 : buf.length < 2 ^ 32) :
    ∀ (count : ℤ) (buf' : List KlogEntry),
      klogSnapshot (klogRun (klogInit boot) (pre ++ klogClearOps ++ post)) buf m =
        some (count, buf') →
      ∀ e ∈ buf'.take count.toNat,
        (klogRun (klogInit boot) pre).globalSeq.toNat ≤ e.seq.toNat ∧
        ∃ call, (numberedCalls post)[e.seq.toNat -
            (klogRun (klogInit boot) pre).globalSeq.toNat]? = some call ∧
          e.view = Record.view ⟨e.seq.toNat, call⟩ := by
  intro count buf' hsnap e he
  have hret := mem_retainedEntries_of_klogSnapshot hm h32 hsnap e he
  obtain ⟨c, r, hmem, hview, hseq⟩ := (refines_reachable boot _).exists_record
    (wellFormed_reachable boot _) ((calls_reachable_le boot _).trans_lt hcalls) hret
  -- the clear empties the logs and keeps the number of calls
  have hpre : (historyRun (History.init boot) pre).calls < 2 ^ 32 := by
    have := calls_reachable_le boot pre
    simp only [List.countP_append] at hcalls
    omega
  have hg := (refines_reachable boot pre).globalSeq_toNat_eq hpre
  rw [historyRun_append, historyRun_append, historyRun_klogClearOps] at hmem
  rcases History.mem_logs_run post hmem with hnil | ⟨hle, hget⟩
  · exact absurd hnil List.not_mem_nil
  · refine ⟨by rw [hg, hseq]; exact hle, r.call, ?_, by rw [hview, hseq]⟩
    rw [hg, hseq]
    exact hget

theorem snapshot_after_clear_logged_after_four :
    1 + ([KlogOp.log (fixedCall 1)] ++ klogClearOps ++ [KlogOp.log (fixedCall 1)]).countP
      KlogOp.isLog < 2 ^ 32 ∧
    4 ≤ (List.replicate 4 KlogEntry.zero).length ∧ (List.replicate 4 KlogEntry.zero).length < 2 ^ 32 ∧
    (klogSnapshot (klogRun (klogInit (fixedCall 0))
      ([KlogOp.log (fixedCall 1)] ++ klogClearOps ++ [KlogOp.log (fixedCall 1)]))
      (List.replicate 4 KlogEntry.zero) (4 : ℕ)).isSome ∧
    ∀ (count : ℤ) (buf' : List KlogEntry),
      klogSnapshot (klogRun (klogInit (fixedCall 0))
          ([KlogOp.log (fixedCall 1)] ++ klogClearOps ++ [KlogOp.log (fixedCall 1)]))
          (List.replicate 4 KlogEntry.zero) (4 : ℕ) = some (count, buf') →
      ∀ e ∈ buf'.take count.toNat,
        (klogRun (klogInit (fixedCall 0)) [.log (fixedCall 1)]).globalSeq.toNat ≤ e.seq.toNat ∧
        ∃ call, (numberedCalls [.log (fixedCall 1)])[e.seq.toNat -
            (klogRun (klogInit (fixedCall 0)) [.log (fixedCall 1)]).globalSeq.toNat]? = some call ∧
          e.view = Record.view ⟨e.seq.toNat, call⟩ :=
  ⟨by decide, by decide, by decide, by decide,
    snapshot_after_clear_logged_after _ _ _ (by decide) (by decide) (by decide)⟩

end Klog

import Klog.History

/-!
# The counters: `dropped` and `global_seq`

Two counters of `klog.h` and `klog.c` are followed here over whole runs.

`dropped` is declared as the "Count of dropped entries due to overflow". `klog_init` and
`klog_clear` set it to zero and the logging path never touches it: a write that overwrites a
retained entry leaves it as it was. So `klog_get_dropped` answers zero in every reachable store,
and the entries logged since each ring was last reset are the ones retained plus `dropped`
exactly while no CPU has logged more than `256` of them.

`global_seq` is a `uint` and wraps. Through the refinement of `Klog.History`, the entry of the
call numbered `n` carries `n % 2^32` as its `seq`, in runs of every length (`Refines.seq_slot`).
Two entries the rings hold therefore share a `seq` exactly when their call numbers are congruent
modulo `2^32`: after `2^32` calls, an entry that survives on a quiet CPU meets its namesake
(`seq_collides_after_wrap`).
-/

namespace Klog

/-! ## `dropped` stays zero -/

/-- No step makes a `dropped` counter nonzero. -/
theorem dropped_apply {s : KlogState} (hs : ∀ c, (s.cpuLogs c).dropped = 0) (op : KlogOp)
    (c : Fin ncpu) : ((op.apply s).cpuLogs c).dropped = 0 := by
  cases op with
  | clearRing d =>
    rw [KlogOp.apply]
    by_cases hc : c = d
    · subst hc
      simp
    · simp [hc, hs c]
  | log call =>
    show ((klogPrintfInternal s call).cpuLogs c).dropped = 0
    by_cases hc : c.val = call.cpu
    · have h : call.cpu < ncpu := hc ▸ c.isLt
      obtain rfl : c = ⟨call.cpu, h⟩ := Fin.ext hc
      rw [klogPrintfInternal_cpuLogs_self s call h, KlogCpuBuf.write_dropped]
      exact hs _
    · rw [klogPrintfInternal_cpuLogs_of_ne s call hc]
      exact hs c

theorem dropped_reachable (boot : LogCall) (ops : List KlogOp) (c : Fin ncpu) :
    ((klogRun (klogInit boot) ops).cpuLogs c).dropped = 0 := by
  have hinit : ∀ c, ((klogInit boot).cpuLogs c).dropped = 0 := by
    rw [klogInit_eq]
    exact dropped_apply (fun c ↦ by simp) _
  exact klogRun_invariant (I := fun s ↦ ∀ c, (s.cpuLogs c).dropped = 0)
    (fun s op hs ↦ dropped_apply hs op) ops hinit c

/-- `klog_get_dropped` answers zero in every reachable store. -/
theorem klogGetDropped_reachable (boot : LogCall) (ops : List KlogOp) :
    klogGetDropped (klogRun (klogInit boot) ops) = 0 := by
  simp only [klogGetDropped, dropped_reachable]
  exact List.foldl_fixed' (fun _ ↦ UInt32.add_zero 0) _

/-! ## Retained plus dropped against logged -/

section Conservation

variable (boot : LogCall) (ops : List KlogOp) (hcalls : 1 + ops.countP KlogOp.isLog < 2 ^ 32)
include hcalls

theorem head_reachable (c : Fin ncpu) :
    ((klogRun (klogInit boot) ops).cpuLogs c).head.toNat =
      ((historyRun (History.init boot) ops).logs c).length :=
  (refines_reachable boot ops).head_eq (wellFormed_reachable boot ops)
    ((calls_reachable_le boot ops).trans_lt hcalls) c

/-- The retained count `R = Σ min(head, 256)` plus `klog_get_dropped` is the number of entries
logged since each ring was last reset, with each CPU's share cut at `256`. -/
theorem retained_add_dropped_reachable :
    (∑ c, min ((klogRun (klogInit boot) ops).cpuLogs c).head.toNat klogBufSize) +
        (klogGetDropped (klogRun (klogInit boot) ops)).toNat =
      ∑ c, min ((historyRun (History.init boot) ops).logs c).length klogBufSize := by
  simp only [klogGetDropped_reachable, head_reachable boot ops hcalls]
  rfl

/-- **The count of dropped entries.** Retained plus `klog_get_dropped` is the number of entries
logged since each ring was last reset exactly when no CPU has logged more than `256` of them. -/
theorem retained_add_dropped_eq_logged_iff :
    (∑ c, min ((klogRun (klogInit boot) ops).cpuLogs c).head.toNat klogBufSize) +
        (klogGetDropped (klogRun (klogInit boot) ops)).toNat =
      ∑ c, ((historyRun (History.init boot) ops).logs c).length ↔
    ∀ c, ((historyRun (History.init boot) ops).logs c).length ≤ klogBufSize := by
  rw [retained_add_dropped_reachable boot ops hcalls,
    Finset.sum_eq_sum_iff_of_le (fun c _ ↦ min_le_left _ _)]
  simp

end Conservation

/-- After `klog_init` and `256` more calls on CPU 0: `257` entries logged, `256` retained, none
counted as dropped. This is the first run at which the count of `retained_add_dropped_eq_logged_iff`
fails: CPU 0 has logged one entry more than its ring holds. -/
theorem dropped_misses_overwritten :
    ∑ c, ((historyRun (History.init (fixedCall 0))
        (List.replicate 256 (KlogOp.log (fixedCall 0)))).logs c).length = 257 ∧
    ∑ c, min ((klogRun (klogInit (fixedCall 0))
        (List.replicate 256 (KlogOp.log (fixedCall 0)))).cpuLogs c).head.toNat klogBufSize = 256 ∧
    klogGetDropped
      (klogRun (klogInit (fixedCall 0)) (List.replicate 256 (KlogOp.log (fixedCall 0)))) = 0 := by
  set ops := List.replicate 256 (KlogOp.log (fixedCall 0))
  set s := klogRun (klogInit (fixedCall 0)) ops
  have hcalls : 1 + ops.countP KlogOp.isLog < 2 ^ 32 := by
    rw [List.countP_replicate]
    decide
  -- the init record and the `256` new ones are all on CPU 0
  have hlen : ∀ c, ((historyRun (History.init (fixedCall 0)) ops).logs c).length =
      if c = 0 then 257 else 0 := by
    intro c
    rw [History.init_of_lt (fixedCall 0) (by decide), historyRun_replicate_log (fixedCall 0) (by decide)]
    by_cases hc : c = 0
    · subst hc
      simp [fixedCall, Function.update_self]
    · have hc' : c ≠ ⟨(fixedCall 0).cpu, by decide⟩ := hc
      simp [Function.update_of_ne hc', hc]
  have hmin : ∀ c, min (s.cpuLogs c).head.toNat klogBufSize = if c = 0 then 256 else 0 := by
    intro c
    rw [head_reachable (fixedCall 0) ops hcalls, hlen]
    split_ifs <;> rfl
  refine ⟨?_, ?_, klogGetDropped_reachable (fixedCall 0) ops⟩
  · simp only [hlen]
    rw [Fintype.sum_ite_eq']
  · simp only [hmin]
    rw [Fintype.sum_ite_eq']

/-! ## Sequence numbers modulo `2^32` -/

/-- A retained slot's `seq`, read off the record at its position. -/
theorem Refines.seq_slot_eq {H : History} {s : KlogState} (hr : Refines H s) (c : Fin ncpu)
    {k : ℕ} (r : Record) (hwin : (H.logs c).length - klogBufSize ≤ k)
    (hrk : (H.logs c)[k]? = some r) : ((s.cpuLogs c).slot k).seq = UInt32.ofNat r.index := by
  obtain ⟨hk, rfl⟩ := List.getElem?_eq_some_iff.mp hrk
  exact hr.seq_slot c hwin hk

/-- After `klog_init` on CPU 0, `2^32 - 1` calls on CPU 1 and one on CPU 2: CPU 0 and CPU 2 each
retain one entry, and both entries have `seq` 0. -/
theorem seq_collides_after_wrap :
    ((klogRun (klogInit (fixedCall 0)) (List.replicate (2 ^ 32 - 1) (KlogOp.log (fixedCall 1)) ++
        [KlogOp.log (fixedCall 2)])).cpuLogs 0).Retains 0 ∧
    ((klogRun (klogInit (fixedCall 0)) (List.replicate (2 ^ 32 - 1) (KlogOp.log (fixedCall 1)) ++
        [KlogOp.log (fixedCall 2)])).cpuLogs 2).Retains 0 ∧
    (((klogRun (klogInit (fixedCall 0)) (List.replicate (2 ^ 32 - 1) (KlogOp.log (fixedCall 1)) ++
        [KlogOp.log (fixedCall 2)])).cpuLogs 0).slot 0).seq =
      (((klogRun (klogInit (fixedCall 0)) (List.replicate (2 ^ 32 - 1) (KlogOp.log (fixedCall 1)) ++
        [KlogOp.log (fixedCall 2)])).cpuLogs 2).slot 0).seq := by
  set ops := List.replicate (2 ^ 32 - 1) (KlogOp.log (fixedCall 1)) ++
    [KlogOp.log (fixedCall 2)]
  set s := klogRun (klogInit (fixedCall 0)) ops
  have hr : Refines (historyRun (History.init (fixedCall 0)) ops) s := refines_reachable (fixedCall 0) ops
  have hrun : historyRun (History.init (fixedCall 0)) ops =
      (historyRun (History.init (fixedCall 0))
        (List.replicate (2 ^ 32 - 1) (KlogOp.log (fixedCall 1)))).step
          (.log (fixedCall 2)) := by
    rw [historyRun_append, historyRun_cons, historyRun_nil]
  -- CPU 0 keeps the init record; CPU 2 gets the call numbered `2^32`
  have hL0 : (historyRun (History.init (fixedCall 0)) ops).logs 0 = [⟨0, initCall (fixedCall 0)⟩] := by
    rw [hrun, History.logs_step_log_of_ne _ _ (by decide),
      historyRun_replicate_log _ (by decide), History.init_of_lt (fixedCall 0) (by decide)]
    simp +decide [fixedCall]
  have hL2 : (historyRun (History.init (fixedCall 0)) ops).logs 2 =
      [⟨2 ^ 32, (fixedCall 2)⟩] := by
    rw [hrun, History.step_log_of_lt _ _ (by decide),
      historyRun_replicate_log _ (by decide), History.init_of_lt (fixedCall 0) (by decide)]
    simp +decide [Function.update_apply, fixedCall]
  have hret : ∀ c r, (historyRun (History.init (fixedCall 0)) ops).logs c = [r] →
      (s.cpuLogs c).Retains 0 ∧ ((s.cpuLogs c).slot 0).seq = UInt32.ofNat r.index := by
    intro c r hc
    refine ⟨?_, hr.seq_slot_eq c r (by rw [hc, List.length_singleton]; decide) (by simp [hc])⟩
    simp only [KlogCpuBuf.Retains, hr.head c, hc, List.length_singleton]
    decide
  obtain ⟨h0, e0⟩ := hret 0 _ hL0
  obtain ⟨h2, e2⟩ := hret 2 _ hL2
  exact ⟨h0, h2, by rw [e0, e2]; rfl⟩

end Klog

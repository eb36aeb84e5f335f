import Klog.Device.Syscall
import Klog.Snapshot.Newest

/-!
# What `getklog` hands out while no ring has wrapped

`sys_getklog` takes a snapshot and copies it out. In a run whose every `klog_clear` ran its
sections back to back, while no CPU has logged more than `256` entries since the last
`klog_clear`, the snapshot of up to `m` entries holds the retained entries with the
`k = min(R, m)` newest sequence numbers, in order (`klogSnapshot_newest`), so what reaches user
memory is fixed by `global_seq` and `R` alone.

Past its checks, with a page and a `copyout` that succeeds in the user's range, `sys_getklog`
returns the `min(R, max_entries, 46)` newest entries, entry `i` at `buf_addr + i * 88`
(`getklog_returns_newest`).
-/

namespace Klog

/-! ## The copy loop of `getklog` when every copy succeeds -/

/-- A copy loop whose planned copies all succeed makes each of them and reports success. -/
theorem getklogCopy_of_ok {copyout : UInt32 → KlogEntry → Bool} (bufAddr : UInt32) :
    ∀ (i : ℕ) (es : List KlogEntry), (∀ p ∈ getklogTargets bufAddr i es, copyout p.1 p.2 = true) →
      getklogCopy copyout bufAddr i es = (true, getklogTargets bufAddr i es)
  | _, [] => fun _ ↦ rfl
  | i, e :: es => fun h ↦ by
    rw [getklogTargets_cons] at h ⊢
    have hhead := h _ List.mem_cons_self
    have htail := getklogCopy_of_ok bufAddr (i + 1) es fun p hp ↦ h p (List.mem_cons_of_mem _ hp)
    simp only [getklogCopy, hhead, htail, if_true]

/-! ## A reachable store in which no ring has wrapped -/

/-- The snapshot of a reachable store in which no ring has wrapped: `klogSnapshot_newest` at the
history of the run. -/
theorem klogSnapshot_newest_reachable {boot : LogCall} {ops : List KlogOp}
    (hclears : WholeClears ops) (hcalls : 1 + ops.countP KlogOp.isLog < 2 ^ 32)
    (hfit : ∀ c, ((klogRun (klogInit boot) ops).cpuLogs c).head.toNat ≤ klogBufSize)
    (hR : 0 < (retainedEntries (klogRun (klogInit boot) ops).cpuLogs).length)
    {buf : List KlogEntry} {m : ℕ} (hm1 : 1 ≤ m) (hm : m ≤ buf.length) (h32 : buf.length < 2 ^ 32) :
    ∃ buf', klogSnapshot (klogRun (klogInit boot) ops) buf m =
        some (((min (retainedEntries (klogRun (klogInit boot) ops).cpuLogs).length m : ℕ) : ℤ),
          buf') ∧
      (buf'.take (min (retainedEntries (klogRun (klogInit boot) ops).cpuLogs).length m)).map
          (fun e ↦ e.seq.toNat) =
        List.range' ((klogRun (klogInit boot) ops).globalSeq.toNat -
            min (retainedEntries (klogRun (klogInit boot) ops).cpuLogs).length m)
          (min (retainedEntries (klogRun (klogInit boot) ops).cpuLogs).length m) ∧
      (∀ e ∈ buf'.take (min (retainedEntries (klogRun (klogInit boot) ops).cpuLogs).length m),
        e ∈ retainedEntries (klogRun (klogInit boot) ops).cpuLogs) :=
  let ⟨buf', hsnap, hseq, hmem, _⟩ := klogSnapshot_newest (refines_reachable boot ops)
    (wellFormed_reachable boot ops) ((calls_reachable_le boot ops).trans_lt hcalls) hfit
    (recent_reachable boot hclears) hm1 hm h32 hR
  ⟨buf', hsnap, hseq, hmem⟩

/-- **`getklog` returns the newest entries.** In a store reachable after fewer than `2^32` calls,
by a run in which no call falls between two sections of a `klog_clear`, in which no CPU has
logged more than `256` entries since the last `klog_clear` and some entry is retained, a call
of `sys_getklog` whose arguments pass its checks, that gets a page, and whose `copyout`s
succeed inside the user's range copies the `k = min(R, max_entries, 46)` retained entries with
the newest `seq`s, `global_seq - k, …, global_seq - 1`, entry `i` to `buf_addr + i * 88`, frees
the page once and returns `k`. -/
theorem getklog_returns_newest (boot : LogCall) (ops : List KlogOp) (hclears : WholeClears ops)
    (hcalls : 1 + ops.countP KlogOp.isLog < 2 ^ 32)
    (hfit : ∀ c, ((klogRun (klogInit boot) ops).cpuLogs c).head.toNat ≤ klogBufSize)
    (hR : 0 < (retainedEntries (klogRun (klogInit boot) ops).cpuLogs).length)
    {bufAddr maxEntries : ℤ} (hb : bufAddr < 2 ^ 31) {sz : UInt32}
    (hargs : GetklogArgsOk bufAddr maxEntries sz) {page : List KlogEntry} (hpage : page.length = 46)
    {copyout : UInt32 → KlogEntry → Bool}
    (hok : ∀ va e, bufAddr ≤ va.toNat →
      va.toNat + klogEntrySize ≤ bufAddr + maxEntries * klogEntrySize → copyout va e = true) :
    ∃ es : List KlogEntry,
      sysGetklog (some bufAddr) (some maxEntries) sz (some page) copyout
          (klogRun (klogInit boot) ops) =
        some ⟨es.length, getklogTargets (UInt32.ofInt bufAddr) 0 es, true, 1⟩ ∧
      es.length = min (retainedEntries (klogRun (klogInit boot) ops).cpuLogs).length
        (min maxEntries maxFit).toNat ∧
      es.map (fun e ↦ e.seq.toNat) =
        List.range' ((klogRun (klogInit boot) ops).globalSeq.toNat - es.length) es.length ∧
      ∀ e ∈ es, e ∈ retainedEntries (klogRun (klogInit boot) ops).cpuLogs := by
  obtain ⟨M, hM1, hM46, hm⟩ := hargs.clamp
  obtain ⟨page', hsnap, hseq, hmem⟩ :=
    klogSnapshot_newest_reachable hclears hcalls hfit hR hM1 (show M ≤ page.length by omega)
      (by omega)
  set k := min (retainedEntries (klogRun (klogInit boot) ops).cpuLogs).length M with hk
  have hlen : (page'.take k).length = k := by
    simpa using congrArg List.length hseq
  -- the count is in range, so every copy the loop plans lies in the user's range and succeeds
  have hcount : (0 : ℤ) ≤ (k : ℤ) ∧ (k : ℤ) ≤ min maxEntries maxFit := by
    rw [hm]
    omega
  rw [← hm] at hsnap
  have hplan : ∀ p ∈ getklogTargets (UInt32.ofInt bufAddr) 0 (page'.take (k : ℤ).toNat),
      copyout p.1 p.2 = true := fun p hp ↦ by
    obtain ⟨-, hlo, hhi, -⟩ := getklogTargets_in_range hb hargs hcount hp
    exact hok p.1 p.2 hlo hhi
  rw [Int.toNat_natCast] at hplan
  refine ⟨page'.take k, ?_, by rw [hlen, hm, Int.toNat_natCast], by rw [hseq, hlen], hmem⟩
  rw [sysGetklog_of_argsOk hb sz (some page) copyout _ hargs, Option.elim_some, hsnap,
    Option.map_some, getklogFinish]
  dsimp only
  rw [Int.toNat_natCast, getklogCopy_of_ok _ 0 _ hplan, hlen]
  rfl

theorem getklog_returns_newest_cleared :
    WholeClears clearedRun ∧ 1 + clearedRun.countP KlogOp.isLog < 2 ^ 32 ∧
    (∀ c, ((klogRun (klogInit (fixedCall 0)) clearedRun).cpuLogs c).head.toNat ≤ klogBufSize) ∧
    0 < (retainedEntries (klogRun (klogInit (fixedCall 0)) clearedRun).cpuLogs).length ∧
    (0 : ℤ) < 2 ^ 31 ∧ GetklogArgsOk 0 10 4096 ∧ (List.replicate 46 KlogEntry.zero).length = 46 ∧
    ∃ es : List KlogEntry,
      sysGetklog (some 0) (some 10) 4096 (some (List.replicate 46 KlogEntry.zero))
          (fun _ _ ↦ true) (klogRun (klogInit (fixedCall 0)) clearedRun) =
        some ⟨es.length, getklogTargets (UInt32.ofInt 0) 0 es, true, 1⟩ ∧
      es.length = min (retainedEntries (klogRun (klogInit (fixedCall 0)) clearedRun).cpuLogs).length
        (min 10 maxFit).toNat ∧
      es.map (fun e ↦ e.seq.toNat) =
        List.range' ((klogRun (klogInit (fixedCall 0)) clearedRun).globalSeq.toNat - es.length)
          es.length ∧
      ∀ e ∈ es, e ∈ retainedEntries (klogRun (klogInit (fixedCall 0)) clearedRun).cpuLogs :=
  have hargs : GetklogArgsOk 0 10 4096 := ⟨by decide, by decide, le_rfl, by decide⟩
  ⟨wholeClears_clearedRun, by decide, by decide, by decide, by decide, hargs,
    List.length_replicate,
    getklog_returns_newest _ _ wholeClears_clearedRun (by decide) (by decide) (by decide)
      (by decide) hargs List.length_replicate fun _ _ _ _ ↦ rfl⟩

end Klog

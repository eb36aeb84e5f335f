import Klog.Counters
import Klog.Snapshot.Passes

/-!
# `klog_snapshot` on the stores a run reaches

The passes of `Klog.Snapshot.Passes` read what the rings retain; through the refinement of
`Klog.History` that is the last `256` records of each CPU's log (`Refines.retained_view`), and
below `2^32` calls the `seq` of each is its call number (`Refines.retained_seq`).

Two consequences are about the code as it stands. After `klog_clear` no ring retains anything,
the copying pass copies nothing, and the sort runs off the caller's buffer
(`klogSnapshot_klogClear`). And the threshold `min_seq + skip_count` counts the retained `seq`s
as if they were consecutive: once a ring has wrapped while another CPU keeps an older entry they
are not, and the copying pass then fills `max_entries` in CPU order with entries that are not the
newest (`snapshot_misses_newest`).
-/

namespace Klog

/-! ## What the rings of a reachable store retain -/

section Retained

variable {H : History} {s : KlogState} (hr : Refines H s) (hw : H.WellFormed)
  (hcalls : H.calls < 2 ^ 32)
include hr hw hcalls

/-- Below `2^32` calls, what a ring retains shows the last `256` records of its CPU's log. -/
theorem Refines.retained_view (c : Fin ncpu) :
    (s.cpuLogs c).retained.map KlogEntry.view =
      RingWindow.window klogBufSize ((H.logs c).map Record.view) := by
  have hwin := RingWindow.map_window_positions (hr.holds c)
  rw [List.length_map] at hwin
  rw [KlogCpuBuf.retained, KlogCpuBuf.positions_eq, hr.head_eq hw hcalls c, List.map_map, ← hwin]
  rfl

/-- Below `2^32` calls, the retained `seq`s of a ring are the call numbers of the last `256`
records of its CPU's log. -/
theorem Refines.retained_seq (c : Fin ncpu) :
    (s.cpuLogs c).retained.map (fun e ↦ e.seq.toNat) =
      (RingWindow.window klogBufSize (H.logs c)).map Record.index := by
  have h := congrArg (List.map fun v : EntryView ↦ v.seq.toNat) (hr.retained_view hw hcalls c)
  simp only [List.map_map, Function.comp_def, KlogEntry.view, RingWindow.window, List.map_drop,
    List.length_map] at h
  rw [h, RingWindow.window, ← List.map_drop]
  -- each record's `seq` is its call number, which is below `2^32`
  apply List.map_congr_left
  intro r hmem
  have hlt : r.index < 2 ^ 32 := (hw.below c r (List.mem_of_mem_drop hmem)).trans hcalls
  simp only [Record.view, UInt32.toNat_ofNat', Nat.mod_eq_of_lt hlt]

end Retained

/-! ## After `klog_clear` -/

/-- With nothing to copy, the copying pass leaves the count at `0` and the buffer as it was. -/
theorem copyFold_of_positions_nil (rings : Fin ncpu → KlogCpuBuf) (m : ℤ) (thr : UInt32) :
    ∀ (l : List (Fin ncpu)) (acc : ℤ × List KlogEntry), (∀ c ∈ l, (rings c).positions = []) →
      l.foldlM (fun acc c ↦ copyRing m thr acc (rings c)) acc = some acc
  | [], _, _ => rfl
  | c :: l, acc, h => by
    rw [List.foldlM_cons, copyRing_eq, h c List.mem_cons_self]
    exact copyFold_of_positions_nil rings m thr l acc fun d hd ↦ h d (List.mem_cons_of_mem c hd)

/-- **No entry retained: the sort runs off the buffer.** When no ring the copying pass reads
retains anything, `count` stays `0` and the sort faults, whatever `max_entries` is. -/
theorem klogSnapshotOf_eq_none_of_head_eq_zero (seen copied : Fin ncpu → KlogCpuBuf)
    {buf : List KlogEntry} (maxEntries : ℤ) (hempty : ∀ c, (copied c).head = 0)
    (h32 : buf.length < 2 ^ 32) : klogSnapshotOf seen copied buf maxEntries = none := by
  have hpos : ∀ c, (copied c).positions = [] := by
    intro c
    rw [KlogCpuBuf.positions_eq, hempty c]
    rfl
  have hcopy : copyPass copied maxEntries (snapshotThreshold seen maxEntries) buf = some (0, buf) :=
    copyFold_of_positions_nil copied _ _ _ _ fun c _ ↦ hpos c
  rw [klogSnapshotOf_eq, hcopy, Option.bind_some]
  show Option.map _ (sortBySeq 0 buf) = none
  rw [sortBySeq_zero h32]
  rfl

theorem klogSnapshot_klogClear (s : KlogState) {buf : List KlogEntry} (maxEntries : ℤ)
    (h32 : buf.length < 2 ^ 32) : klogSnapshot (klogClear s) buf maxEntries = none :=
  klogSnapshotOf_eq_none_of_head_eq_zero _ _ maxEntries (fun c ↦ by simp) h32

/-- After `klog_init` and `klog_clear`, `klog_snapshot(buf, 64)` into a buffer of `64` entries
does not return: its sort reads past the buffer. -/
theorem snapshot_after_clear_faults :
    klogSnapshot (klogClear (klogInit (fixedCall 0))) (List.replicate 64 KlogEntry.zero) 64 =
      none :=
  klogSnapshot_klogClear _ 64 (by simp)

/-! ## A snapshot that misses the newest entry -/

/-- After `klog_init` on CPU 0, one call on CPU 1 and `257` on CPU 0, the rings retain the
entries numbered `1` and `3 .. 258`. `klog_snapshot(buf, 64)` computes `total = 257` and
`min_seq = 1`, so its threshold is `1 + 193 = 194`, and CPU 0's entries `194 .. 257` fill the
`64` places before entry `258`, the newest, is reached. -/
theorem snapshot_misses_newest :
    ((klogRun (klogInit (fixedCall 0)) (KlogOp.log (fixedCall 1) ::
        List.replicate 257 (KlogOp.log (fixedCall 0)))).cpuLogs 0).Retains 257 ∧
    (((klogRun (klogInit (fixedCall 0)) (KlogOp.log (fixedCall 1) ::
        List.replicate 257 (KlogOp.log (fixedCall 0)))).cpuLogs 0).slot 257).seq.toNat = 258 ∧
    ∃ buf', klogSnapshot (klogRun (klogInit (fixedCall 0)) (KlogOp.log (fixedCall 1) ::
        List.replicate 257 (KlogOp.log (fixedCall 0)))) (List.replicate 64 KlogEntry.zero) 64 =
          some (64, buf') ∧
      buf'.map (fun e ↦ e.seq.toNat) = List.range' 194 64 := by
  set ops := KlogOp.log (fixedCall 1) :: List.replicate 257 (KlogOp.log (fixedCall 0))
  set s := klogRun (klogInit (fixedCall 0)) ops
  set H := historyRun (History.init (fixedCall 0)) ops
  have hr : Refines H s := refines_reachable _ ops
  have hw : H.WellFormed := wellFormed_reachable _ ops
  have hcalls : H.calls < 2 ^ 32 := (calls_reachable_le _ ops).trans_lt (by
    rw [List.countP_cons, List.countP_replicate]
    decide)
  have hlogs : ∀ c, H.logs c =
      if c = 0 then ⟨0, initCall (fixedCall 0)⟩ :: (List.range' 2 257).map (⟨·, fixedCall 0⟩)
      else if c = 1 then [⟨1, fixedCall 1⟩] else [] := by
    intro c
    simp only [H, ops, historyRun_cons, History.init_of_lt (fixedCall 0) (by decide),
      History.step_log_of_lt _ (fixedCall 1) (by decide),
      historyRun_replicate_log (fixedCall 0) (by decide)]
    by_cases h0 : c = 0
    · subst h0
      simp +decide [fixedCall]
    · by_cases h1 : c = 1
      · subst h1
        simp +decide [Function.update_apply, fixedCall]
      · have h0' : c ≠ ⟨(fixedCall 0).cpu, by decide⟩ := h0
        have h1' : c ≠ ⟨(fixedCall 1).cpu, by decide⟩ := h1
        simp [Function.update_of_ne h0', Function.update_of_ne h1', h0, h1]
  have hseqs : ∀ c, (s.cpuLogs c).retained.map (fun e ↦ e.seq.toNat) =
      if c = 0 then List.range' 3 256 else if c = 1 then [1] else [] := by
    intro c
    rw [hr.retained_seq hw hcalls, hlogs]
    split_ifs <;> simp [RingWindow.window, klogBufSize, Function.comp_def, List.tail_range']
  -- the counting pass: `total = 256 + 1` and `min_seq = 1`
  have hmin_len : ∀ c, min (s.cpuLogs c).head.toNat klogBufSize =
      if c = 0 then 256 else if c = 1 then 1 else 0 := by
    intro c
    rw [← KlogCpuBuf.length_positions, ← List.length_map (s.cpuLogs c).slot, ← KlogCpuBuf.retained,
      ← List.length_map (fun e ↦ e.seq.toNat), hseqs c]
    split_ifs <;> simp
  have htotal : (countPass s.cpuLogs).1 = 257 := by
    rw [countPass_fst, Fin.sum_univ_def]
    simp only [hmin_len]
    decide
  have hge : ∀ c, ∀ e ∈ (s.cpuLogs c).retained, 1 ≤ e.seq.toNat := by
    intro c e he
    have hmem : e.seq.toNat ∈ (s.cpuLogs c).retained.map (fun e ↦ e.seq.toNat) :=
      List.mem_map_of_mem he
    rw [hseqs c] at hmem
    split_ifs at hmem <;> simp [List.mem_range'] at hmem <;> omega
  have hmin : (countPass s.cpuLogs).2.toNat = 1 := by
    obtain ⟨e, he, he1⟩ : ∃ e ∈ (s.cpuLogs 1).retained, e.seq.toNat = 1 := by
      have hmem : 1 ∈ (s.cpuLogs 1).retained.map (fun e ↦ e.seq.toNat) := by
        rw [hseqs 1]
        decide
      simpa using hmem
    exact countPass_snd_toNat_eq s.cpuLogs he he1 hge
  have hthr : (snapshotThreshold s.cpuLogs 64).toNat = 194 := by
    rw [snapshotThreshold, htotal, UInt32.toNat_add, hmin]
    decide
  -- the copying pass keeps CPU 0's entries `194 .. 258` and stops after `194 .. 257`
  have hsel : ((selected s.cpuLogs (snapshotThreshold s.cpuLogs 64)).take 64).map
      (fun e ↦ e.seq.toNat) = List.range' 194 64 := by
    rw [List.map_take, map_seq_selected, hthr]
    simp only [hseqs]
    decide
  have hlen : ((selected s.cpuLogs (snapshotThreshold s.cpuLogs 64)).take 64).length = 64 := by
    rw [← List.length_map (fun e ↦ e.seq.toNat), hsel, List.length_range']
  obtain ⟨-, hspec⟩ := klogSnapshotOf_spec s.cpuLogs s.cpuLogs
    (show 64 ≤ (List.replicate 64 KlogEntry.zero).length by simp) (by simp)
  simp only [Nat.cast_ofNat] at hspec
  obtain ⟨buf', hsnap, hperm, hsorted, hdrop⟩ :=
    hspec (by rw [← List.length_pos_iff, hlen]; decide)
  rw [hlen] at hsnap hperm hsorted hdrop
  have htake : buf'.take 64 = buf' := by
    rw [List.take_eq_self_iff, ← List.drop_eq_nil_iff, hdrop]
    simp
  rw [htake] at hperm hsorted
  -- the newest entry, `258`, sits at write position `257` of CPU 0
  have hhead0 : (s.cpuLogs 0).head.toNat = 258 := by
    rw [hr.head_eq hw hcalls, hlogs]
    simp
  refine ⟨?_, ?_, buf', hsnap, ?_⟩
  · rw [KlogCpuBuf.Retains, hhead0]
    decide
  · rw [hr.seq_slot_eq 0 ⟨258, fixedCall 0⟩ (by rw [hlogs]; simp [klogBufSize])
      (by rw [hlogs]; simp)]
    decide
  · have hp := hperm.map fun e ↦ e.seq.toNat
    rw [hsel] at hp
    exact hp.eq_of_pairwise' (List.pairwise_map.mpr hsorted) List.pairwise_le_range'

/-! ## Sequence numbers modulo `2^32` -/

/-- Whatever a snapshot returns is ordered by raw `seq`. -/
theorem klogSnapshotOf_sorted (seen copied : Fin ncpu → KlogCpuBuf) {buf : List KlogEntry}
    {m : ℕ} (hm : m ≤ buf.length) (h32 : buf.length < 2 ^ 32) {count : ℤ}
    {buf' : List KlogEntry} (h : klogSnapshotOf seen copied buf m = some (count, buf')) :
    (buf'.take count.toNat).Pairwise fun a b ↦ a.seq.toNat ≤ b.seq.toNat := by
  obtain ⟨hnil, hsel⟩ := klogSnapshotOf_spec seen copied hm h32
  by_cases hempty : (selected copied (snapshotThreshold seen m)).take m = []
  · rw [hnil hempty] at h
    cases h
  · obtain ⟨b, hb, -, hsorted, -⟩ := hsel hempty
    rw [hb] at h
    obtain ⟨rfl, rfl⟩ := Prod.mk.inj (Option.some.inj h)
    rwa [Int.toNat_natCast]

/-- What the rings of `s` hold in a run of any length, read against the per-CPU logs `L`: each
`head` is the length of its log modulo `2^32`; the write positions in the last `256` of the log
hold their records, with the call number modulo `2^32` as `seq`; and two such entries share a
`seq` exactly when their call numbers are congruent modulo `2^32`. -/
structure RingsHoldModulo (s : KlogState) (L : Fin ncpu → List Record) : Prop where
  head : ∀ c, (s.cpuLogs c).head.toNat = (L c).length % 2 ^ 32
  slot : ∀ c k, (L c).length - klogBufSize ≤ k → ∀ hk : k < (L c).length,
    ((s.cpuLogs c).slot k).view = (L c)[k].view ∧
      ((s.cpuLogs c).slot k).seq.toNat = (L c)[k].index % 2 ^ 32
  seq_eq_iff : ∀ c c' k k', (L c).length - klogBufSize ≤ k → (L c').length - klogBufSize ≤ k' →
    ∀ (hk : k < (L c).length) (hk' : k' < (L c').length),
      ((s.cpuLogs c).slot k).seq = ((s.cpuLogs c').slot k').seq ↔
        (L c)[k].index % 2 ^ 32 = (L c')[k'].index % 2 ^ 32

theorem Refines.ringsHoldModulo {H : History} {s : KlogState} (hr : Refines H s) :
    RingsHoldModulo s H.logs := by
  have hseq : ∀ c k (hwin : (H.logs c).length - klogBufSize ≤ k) (hk : k < (H.logs c).length),
      ((s.cpuLogs c).slot k).seq.toNat = (H.logs c)[k].index % 2 ^ 32 := by
    intro c k hwin hk
    rw [hr.seq_slot c hwin hk, UInt32.toNat_ofNat']
  refine ⟨hr.head, fun c k hwin hk ↦ ⟨hr.view_slot c hwin hk, hseq c k hwin hk⟩, ?_⟩
  intro c c' k k' hwin hwin' hk hk'
  rw [← UInt32.toNat_inj, hseq c k hwin hk, hseq c' k' hwin' hk']

/-- **Sequence numbers wrap.** In a run of any length, the rings hold the last `256` records of
each CPU's log with their call numbers modulo `2^32` as `seq`, so two of them share a `seq`
exactly when their call numbers are congruent modulo `2^32`; and a snapshot orders what it
returns by these raw `seq`s. -/
theorem seq_wraps_modulo (boot : LogCall) (ops : List KlogOp) :
    RingsHoldModulo (klogRun (klogInit boot) ops) (historyRun (History.init boot) ops).logs ∧
    ∀ (buf : List KlogEntry) (m : ℕ), m ≤ buf.length → buf.length < 2 ^ 32 →
      ∀ count buf', klogSnapshot (klogRun (klogInit boot) ops) buf m = some (count, buf') →
        (buf'.take count.toNat).Pairwise fun a b ↦ a.seq.toNat ≤ b.seq.toNat :=
  ⟨(refines_reachable boot ops).ringsHoldModulo,
    fun _ _ hm h32 _ _ h ↦ klogSnapshotOf_sorted _ _ hm h32 h⟩

end Klog

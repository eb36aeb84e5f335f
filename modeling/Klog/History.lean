import Klog.Model.Printf

/-!
# What the store is for: the per-CPU logs since each ring was last reset

The abstract model of the store. Every logging call that gets a sequence number appends a
*record* — its call number in the run and its inputs — to the log of its CPU; each section of
`klog_clear` empties its CPU's log. Nothing is ever overwritten and no counter wraps.

The concrete store refines it (`Refines`). `global_seq` is the number of calls modulo `2^32`,
`head` is the length of the CPU's log modulo `2^32`, and the ring *holds* the log in the sense
of `RingWindow.Holds`: the last `256` records sit in the slots their positions select, each
showing the record's fields. The refinement is proved for runs of every length; below `2^32`
calls the moduli vanish and the ring is an exact window on the log.

## Two layers of facts

Facts about the logs alone (records of a CPU's log carry that CPU, their call numbers strictly
increase along the log, and call numbers are unique across logs) are proved on the abstract
model (`History.WellFormed`). Facts about the store are transported through `Refines`.
-/

namespace Klog

/-- What an entry says: its fields, and its message up to the first NUL. -/
structure EntryView where
  seq : UInt32
  timestampHi : UInt32
  timestampLo : UInt32
  cpu : UInt32
  pid : UInt32
  level : UInt32
  text : List Char

/-- What a stored entry says. -/
def KlogEntry.view (e : KlogEntry) : EntryView :=
  ⟨e.seq, e.timestampHi, e.timestampLo, e.cpu, e.pid, e.level, cstr e.msg⟩

/-- One logging call of a run: its position among the calls that took a sequence number, and
what it read. -/
structure Record where
  /-- The call's number in the run: the sequence number it would get with no wraparound. -/
  index : ℕ
  /-- The call. -/
  call : LogCall

/-- What the entry of a record should say. -/
def Record.view (r : Record) : EntryView :=
  ⟨UInt32.ofNat r.index, r.call.tsc.1, r.call.tsc.2, UInt32.ofNat r.call.cpu,
    UInt32.ofInt r.call.pid, UInt32.ofInt r.call.level, msgText r.call.line.bytes⟩

/-- The entry a call builds shows its record, whatever message the slot held before. -/
theorem toEntry_view (call : LogCall) (n : ℕ) (old : Fin 64 → Char) :
    (call.toEntry (UInt32.ofNat n) old).view = Record.view ⟨n, call⟩ := by
  simp only [KlogEntry.view, LogCall.toEntry, Record.view, cstr_copyMsg]

/-! ## The abstract model -/

/-- The per-CPU logs, each since its ring was last reset, and the number of calls that took a
number. -/
structure History where
  /-- For each CPU, the records logged on it since its ring was last reset, oldest first. -/
  logs : Fin ncpu → List Record
  /-- How many calls have taken a sequence number. -/
  calls : ℕ

/-- The effect of one step on the logs. -/
def History.step (h : History) : KlogOp → History
  | .log call =>
    if hc : call.cpu < ncpu then
      ⟨Function.update h.logs ⟨call.cpu, hc⟩ (h.logs ⟨call.cpu, hc⟩ ++ [⟨h.calls, call⟩]),
        h.calls + 1⟩
    else h
  | .clearRing c => ⟨Function.update h.logs c [], h.calls⟩

/-- The logs after the steps `ops`. -/
def historyRun (h : History) (ops : List KlogOp) : History :=
  ops.foldl History.step h

/-- The call `klog_init` makes. -/
def initCall (boot : LogCall) : LogCall :=
  { boot with fmt := klogInitMsg, pid := 0, level := klogInfo }

/-- The logs after `klog_init`: the boot CPU's one record. -/
def History.init (boot : LogCall) : History :=
  History.step ⟨fun _ ↦ [], 0⟩ (.log (initCall boot))

theorem klogInit_eq (boot : LogCall) :
    klogInit boot = (KlogOp.log (initCall boot)).apply (klogClear KlogState.zero) := rfl

@[simp] theorem historyRun_nil (h : History) : historyRun h [] = h := rfl

@[simp] theorem historyRun_cons (h : History) (op : KlogOp) (ops : List KlogOp) :
    historyRun h (op :: ops) = historyRun (h.step op) ops := rfl

theorem historyRun_append (h : History) (ops ops' : List KlogOp) :
    historyRun h (ops ++ ops') = historyRun (historyRun h ops) ops' := by
  rw [historyRun, List.foldl_append]
  rfl

theorem History.step_log_of_lt (h : History) (call : LogCall) (hc : call.cpu < ncpu) :
    h.step (.log call) =
      ⟨Function.update h.logs ⟨call.cpu, hc⟩ (h.logs ⟨call.cpu, hc⟩ ++ [⟨h.calls, call⟩]),
        h.calls + 1⟩ := by
  rw [History.step, dif_pos hc]

theorem History.step_log_of_le (h : History) (call : LogCall) (hc : ncpu ≤ call.cpu) :
    h.step (.log call) = h := by
  rw [History.step, dif_neg (by omega)]

/-- A call leaves the logs of the other CPUs alone. -/
theorem History.logs_step_log_of_ne (h : History) (call : LogCall) {c : Fin ncpu}
    (hc : c.val ≠ call.cpu) : (h.step (.log call)).logs c = h.logs c := by
  by_cases hlt : call.cpu < ncpu
  · rw [h.step_log_of_lt call hlt]
    exact Function.update_of_ne (Fin.ne_of_val_ne hc) _ _
  · rw [h.step_log_of_le call (by omega)]

@[simp] theorem History.logs_step_clearRing_self (h : History) (c : Fin ncpu) :
    (h.step (.clearRing c)).logs c = [] :=
  Function.update_self _ _ _

/-- A section of `klog_clear` leaves the logs of the other CPUs alone. -/
@[simp] theorem History.logs_step_clearRing_of_ne (h : History) {c d : Fin ncpu} (hd : d ≠ c) :
    (h.step (.clearRing c)).logs d = h.logs d :=
  Function.update_of_ne hd _ _

@[simp] theorem History.calls_step_clearRing (h : History) (c : Fin ncpu) :
    (h.step (.clearRing c)).calls = h.calls := rfl

/-- A section of `klog_clear` keeps a part of each log. -/
theorem History.logs_step_clearRing_sublist (h : History) (c d : Fin ncpu) :
    ((h.step (.clearRing c)).logs d).Sublist (h.logs d) := by
  by_cases hd : d = c
  · subst hd
    rw [h.logs_step_clearRing_self]
    exact List.nil_sublist _
  · rw [h.logs_step_clearRing_of_ne hd]

/-- The sections for the CPUs `cs`, back to back, empty exactly those logs. -/
theorem historyRun_map_clearRing (cs : List (Fin ncpu)) (h : History) :
    historyRun h (cs.map KlogOp.clearRing) =
      ⟨fun c ↦ if c ∈ cs then [] else h.logs c, h.calls⟩ := by
  induction cs generalizing h with
  | nil => rfl
  | cons a cs ih =>
    rw [List.map_cons, historyRun_cons, ih]
    congr 1
    funext c
    by_cases hc : c = a
    · subst hc
      simp
    · simp [hc]

/-- A whole `klog_clear` empties every log. -/
theorem historyRun_klogClearOps (h : History) :
    historyRun h klogClearOps = ⟨fun _ ↦ [], h.calls⟩ := by
  rw [klogClearOps, historyRun_map_clearRing]
  simp

/-- `n` calls in a row on one CPU append `n` records with consecutive call numbers to its log. -/
theorem historyRun_replicate_log (call : LogCall) (hc : call.cpu < ncpu) :
    ∀ (n : ℕ) (h : History), historyRun h (List.replicate n (.log call)) =
      ⟨Function.update h.logs ⟨call.cpu, hc⟩
        (h.logs ⟨call.cpu, hc⟩ ++ (List.range' h.calls n).map (⟨·, call⟩)), h.calls + n⟩
  | 0, h => by simp
  | n + 1, h => by
    rw [List.replicate_succ, historyRun_cons, historyRun_replicate_log call hc n,
      h.step_log_of_lt call hc]
    simp only [Function.update_idem, Function.update_self, List.range'_succ, List.map_cons,
      List.append_assoc, List.singleton_append]
    congr 1
    omega

theorem History.init_of_lt (boot : LogCall) (hb : boot.cpu < ncpu) :
    History.init boot = ⟨Function.update (fun _ ↦ []) ⟨boot.cpu, hb⟩ [⟨0, initCall boot⟩], 1⟩ :=
  History.step_log_of_lt _ (initCall boot) hb

/-! ## Facts about the logs alone -/

/-- The shape every reachable history has. -/
structure History.WellFormed (h : History) : Prop where
  /-- A CPU's log holds only calls made on that CPU. -/
  cpu : ∀ c, ∀ r ∈ h.logs c, r.call.cpu = c
  /-- Call numbers strictly increase along a log. -/
  increasing : ∀ c, (h.logs c).Pairwise fun r r' ↦ r.index < r'.index
  /-- Every call number is below the number of calls. -/
  below : ∀ c, ∀ r ∈ h.logs c, r.index < h.calls
  /-- Two CPUs never hold the same call number. -/
  disjoint : ∀ c c', ∀ r ∈ h.logs c, ∀ r' ∈ h.logs c', r.index = r'.index → c = c'
  /-- No log is longer than the run. -/
  length_le : ∀ c, (h.logs c).length ≤ h.calls

/-- Keeping a part of each log, with the same number of calls, keeps the shape. -/
theorem History.WellFormed.of_sublist {h h' : History} (hw : h.WellFormed)
    (hsub : ∀ c, (h'.logs c).Sublist (h.logs c)) (hcalls : h'.calls = h.calls) : h'.WellFormed where
  cpu c r hr := hw.cpu c r ((hsub c).subset hr)
  increasing c := (hw.increasing c).sublist (hsub c)
  below c r hr := hcalls ▸ hw.below c r ((hsub c).subset hr)
  disjoint c c' r hr r' hr' := hw.disjoint c c' r ((hsub c).subset hr) r' ((hsub c').subset hr')
  length_le c := hcalls ▸ ((hsub c).length_le.trans (hw.length_le c))

theorem History.WellFormed.step {h : History} (hw : h.WellFormed) (op : KlogOp) :
    (h.step op).WellFormed := by
  cases op with
  | clearRing c => exact hw.of_sublist (h.logs_step_clearRing_sublist c) rfl
  | log call =>
    by_cases hc : call.cpu < ncpu
    swap
    · rwa [History.step_log_of_le h call (by omega)]
    rw [History.step_log_of_lt h call hc]
    -- the new record is the only one in a log that was not there before, and it is the newest
    have hmem : ∀ c, ∀ r ∈ Function.update h.logs ⟨call.cpu, hc⟩
        (h.logs ⟨call.cpu, hc⟩ ++ [⟨h.calls, call⟩]) c, r ∈ h.logs c ∨
          (c = ⟨call.cpu, hc⟩ ∧ r = ⟨h.calls, call⟩) := by
      intro c r hr
      by_cases hcc : c = ⟨call.cpu, hc⟩
      · subst hcc
        rw [Function.update_self, List.mem_append, List.mem_singleton] at hr
        rcases hr with hr | rfl
        · exact .inl hr
        · exact .inr ⟨rfl, rfl⟩
      · rw [Function.update_of_ne hcc] at hr
        exact .inl hr
    refine ⟨?_, ?_, ?_, ?_, ?_⟩
    · intro c r hr
      rcases hmem c r hr with hr | ⟨rfl, rfl⟩
      · exact hw.cpu c r hr
      · rfl
    · intro c
      dsimp only
      by_cases hcc : c = ⟨call.cpu, hc⟩
      · subst hcc
        rw [Function.update_self, List.pairwise_append]
        exact ⟨hw.increasing _, List.pairwise_singleton _ _,
          fun r hr r' hr' ↦ by rw [List.mem_singleton.mp hr']; exact hw.below _ r hr⟩
      · rw [Function.update_of_ne hcc]
        exact hw.increasing c
    · intro c r hr
      rcases hmem c r hr with hr | ⟨rfl, rfl⟩
      · exact Nat.lt_succ_of_lt (hw.below c r hr)
      · exact Nat.lt_succ_self _
    · intro c c' r hr r' hr' heq
      rcases hmem c r hr with hr | ⟨rfl, rfl⟩ <;> rcases hmem c' r' hr' with hr' | ⟨rfl, rfl⟩
      · exact hw.disjoint c c' r hr r' hr' heq
      · exact absurd heq (Nat.ne_of_lt (hw.below c r hr))
      · exact absurd heq.symm (Nat.ne_of_lt (hw.below c' r' hr'))
      · rfl
    · intro c
      dsimp only
      by_cases hcc : c = ⟨call.cpu, hc⟩
      · subst hcc
        rw [Function.update_self, List.length_append, List.length_singleton]
        exact Nat.succ_le_succ (hw.length_le _)
      · rw [Function.update_of_ne hcc]
        exact Nat.le_succ_of_le (hw.length_le c)

theorem History.WellFormed.run {h : History} (hw : h.WellFormed) :
    ∀ ops : List KlogOp, (historyRun h ops).WellFormed
  | [] => hw
  | op :: ops => (hw.step op).run ops

theorem History.wellFormed_init (boot : LogCall) : (History.init boot).WellFormed :=
  History.WellFormed.step ⟨by simp, by simp, by simp, by simp, by simp⟩ _

theorem History.calls_step_le (h : History) (op : KlogOp) :
    (h.step op).calls ≤ h.calls + if op.isLog then 1 else 0 := by
  cases op with
  | clearRing c => simp [KlogOp.isLog]
  | log call =>
    by_cases hc : call.cpu < ncpu
    · simp [History.step_log_of_lt h call hc, KlogOp.isLog]
    · simp [History.step_log_of_le h call (by omega), KlogOp.isLog]

/-- The calls that took a number are at most the logging steps of the run. -/
theorem History.calls_run_le (h : History) :
    ∀ ops : List KlogOp, (historyRun h ops).calls ≤ h.calls + ops.countP KlogOp.isLog
  | [] => by simp
  | op :: ops => by
    have hstep := h.calls_step_le op
    have hrun := (h.step op).calls_run_le ops
    rw [historyRun_cons, List.countP_cons]
    split_ifs at hstep ⊢ <;> omega

theorem History.calls_init (boot : LogCall) : (History.init boot).calls ≤ 1 := by
  have := History.calls_step_le ⟨fun _ ↦ [], 0⟩ (.log (initCall boot))
  simp only [KlogOp.isLog, if_true, Nat.zero_add] at this
  exact this

/-! ## The store refines the logs -/

/-- The store holds the logs `h`, modulo the width of its counters. -/
structure Refines (h : History) (s : KlogState) : Prop where
  /-- `global_seq` counts the calls, modulo `2^32`. -/
  globalSeq : s.globalSeq.toNat = h.calls % 2 ^ 32
  /-- `head` counts a CPU's calls since its ring was last reset, modulo `2^32`. -/
  head : ∀ c, (s.cpuLogs c).head.toNat = (h.logs c).length % 2 ^ 32
  /-- Each ring holds the window of its CPU's log. -/
  holds : ∀ c, RingWindow.Holds KlogEntry.view (s.cpuLogs c).entries ((h.logs c).map Record.view)

/-- A `head` that wrapped still selects the right slot: `2^32` is a multiple of the ring size. -/
theorem ofNat_mod_two_pow (n : ℕ) :
    Fin.ofNat klogBufSize (n % 2 ^ 32) = Fin.ofNat klogBufSize n :=
  Fin.ext (by
    rw [Fin.val_ofNat, Fin.val_ofNat, klogBufSize]
    exact Nat.mod_mod_of_dvd n (by decide : 256 ∣ 2 ^ 32))

/-- **The simulation step.** Every step of the store matches the same step of the logs. -/
theorem Refines.step {h : History} {s : KlogState} (hr : Refines h s) (op : KlogOp) :
    Refines (h.step op) (op.apply s) := by
  cases op with
  | clearRing c =>
    -- ring `c` and its log start again empty; the others are untouched
    rw [KlogOp.apply]
    refine ⟨hr.globalSeq, fun d ↦ ?_, fun d ↦ ?_⟩
    · by_cases hd : d = c
      · subst hd
        simp
      · simp [hd, hr.head d]
    · by_cases hd : d = c
      · subst hd
        simpa using RingWindow.holds_nil _ _
      · simpa [hd] using hr.holds d
  | log call =>
    by_cases hc : call.cpu < ncpu
    swap
    · rw [History.step_log_of_le h call (by omega), KlogOp.apply,
        klogPrintfInternal_of_le s call (by omega)]
      exact hr
    rw [History.step_log_of_lt h call hc, KlogOp.apply]
    set c₀ : Fin ncpu := ⟨call.cpu, hc⟩
    have hseq : s.globalSeq = UInt32.ofNat h.calls := by
      apply UInt32.toNat_inj.mp
      rw [hr.globalSeq, UInt32.toNat_ofNat']
    refine ⟨?_, fun c ↦ ?_, fun c ↦ ?_⟩
    · rw [klogPrintfInternal_globalSeq s call hc, UInt32.toNat_add, hr.globalSeq]
      simp only [UInt32.toNat_one]
      omega
    · by_cases hcc : c = c₀
      · subst hcc
        rw [klogPrintfInternal_cpuLogs_self s call hc, KlogCpuBuf.write_head, UInt32.toNat_add,
          hr.head]
        simp [c₀]
      · rw [klogPrintfInternal_cpuLogs_of_ne s call (fun h' ↦ hcc (Fin.ext h')), hr.head c]
        simp [hcc]
    · by_cases hcc : c = c₀
      · subst hcc
        -- the new entry goes to slot `length % 256`, where `holds_push` wants it
        have hslot : Fin.ofNat klogBufSize (s.cpuLogs c₀).head.toNat =
            Fin.ofNat klogBufSize (h.logs c₀).length := by
          rw [hr.head, ofNat_mod_two_pow]
        have hpush := RingWindow.holds_push (hr.holds c₀)
          (toEntry_view call h.calls ((s.cpuLogs c₀).entries
            (Fin.ofNat klogBufSize (h.logs c₀).length)).msg)
        rw [List.length_map] at hpush
        have hpusheq : ∀ b, RingWindow.push (s.cpuLogs c₀).entries (s.cpuLogs c₀).head.toNat b =
            RingWindow.push (s.cpuLogs c₀).entries (h.logs c₀).length b := fun b ↦ by
          rw [RingWindow.push, RingWindow.push, hslot]
        rw [klogPrintfInternal_cpuLogs_self s call hc, KlogCpuBuf.write_entries, hpusheq, hslot,
          hseq]
        simpa [c₀] using hpush
      · rw [klogPrintfInternal_cpuLogs_of_ne s call (fun h' ↦ hcc (Fin.ext h'))]
        simpa [hcc] using hr.holds c

theorem Refines.run {h : History} {s : KlogState} (hr : Refines h s) :
    ∀ ops : List KlogOp, Refines (historyRun h ops) (klogRun s ops)
  | [] => hr
  | op :: ops => (hr.step op).run ops

theorem refines_init (boot : LogCall) : Refines (History.init boot) (klogInit boot) := by
  rw [klogInit_eq]
  refine Refines.step ⟨by rfl, fun c ↦ by rfl, fun c ↦ ?_⟩ _
  simpa using RingWindow.holds_nil KlogEntry.view (klogClear KlogState.zero |>.cpuLogs c).entries

/-- **Every reachable store refines its logs**, for runs of any length. -/
theorem refines_reachable (boot : LogCall) (ops : List KlogOp) :
    Refines (historyRun (History.init boot) ops) (klogRun (klogInit boot) ops) :=
  (refines_init boot).run ops

theorem wellFormed_reachable (boot : LogCall) (ops : List KlogOp) :
    (historyRun (History.init boot) ops).WellFormed :=
  (History.wellFormed_init boot).run ops

theorem calls_reachable_le (boot : LogCall) (ops : List KlogOp) :
    (historyRun (History.init boot) ops).calls ≤ 1 + ops.countP KlogOp.isLog := by
  have := (History.init boot).calls_run_le ops
  have := History.calls_init boot
  omega

/-! ## Reading the rings through the refinement -/

section Reading

variable {H : History} {s : KlogState}

/-- The slot of a window position shows the record at that position. -/
theorem Refines.view_slot (hr : Refines H s) (c : Fin ncpu) {k : ℕ}
    (hwin : (H.logs c).length - klogBufSize ≤ k) (hk : k < (H.logs c).length) :
    ((s.cpuLogs c).slot k).view = (H.logs c)[k].view := by
  have := hr.holds c k (by simpa using hk) (by simpa using hwin)
  simpa [KlogCpuBuf.slot] using this

theorem Refines.seq_slot (hr : Refines H s) (c : Fin ncpu) {k : ℕ}
    (hwin : (H.logs c).length - klogBufSize ≤ k) (hk : k < (H.logs c).length) :
    ((s.cpuLogs c).slot k).seq = UInt32.ofNat (H.logs c)[k].index :=
  congrArg EntryView.seq (hr.view_slot c hwin hk)

/-- Below `2^32` calls, `head` is the length of the log. -/
theorem Refines.head_eq (hr : Refines H s) (hw : H.WellFormed) (hcalls : H.calls < 2 ^ 32)
    (c : Fin ncpu) : (s.cpuLogs c).head.toNat = (H.logs c).length := by
  rw [hr.head c, Nat.mod_eq_of_lt ((hw.length_le c).trans_lt hcalls)]

/-- Below `2^32` calls, the positions the ring retains by its own arithmetic are exactly the
window of the log. -/
theorem Refines.retains_iff (hr : Refines H s) (hw : H.WellFormed) (hcalls : H.calls < 2 ^ 32)
    (c : Fin ncpu) (k : ℕ) :
    (s.cpuLogs c).Retains k ↔ (H.logs c).length - klogBufSize ≤ k ∧ k < (H.logs c).length := by
  rw [KlogCpuBuf.Retains, hr.head_eq hw hcalls c]
  omega

theorem Refines.cpu_slot (hr : Refines H s) (hw : H.WellFormed) (c : Fin ncpu) {k : ℕ}
    (hwin : (H.logs c).length - klogBufSize ≤ k) (hk : k < (H.logs c).length) :
    ((s.cpuLogs c).slot k).cpu = UInt32.ofNat c := by
  have hview := hr.view_slot c hwin hk
  rw [show ((s.cpuLogs c).slot k).cpu = ((s.cpuLogs c).slot k).view.cpu from rfl, hview]
  simp [Record.view, hw.cpu c _ (List.getElem_mem hk)]

section Below

variable (hr : Refines H s) (hw : H.WellFormed) (hcalls : H.calls < 2 ^ 32)
include hr hw hcalls

/-- Below `2^32` calls, a retained slot's `seq` is the call number of its record. -/
theorem Refines.seq_toNat_of_retains {c : Fin ncpu} {k : ℕ} (hk : (s.cpuLogs c).Retains k) :
    ∃ hlt : k < (H.logs c).length, ((s.cpuLogs c).slot k).seq.toNat = (H.logs c)[k].index := by
  obtain ⟨hwin, hlt⟩ := (hr.retains_iff hw hcalls c k).mp hk
  refine ⟨hlt, ?_⟩
  rw [hr.seq_slot c hwin hlt, UInt32.toNat_ofNat',
    Nat.mod_eq_of_lt ((hw.below c _ (List.getElem_mem hlt)).trans hcalls)]

theorem Refines.seq_lt_seq {c : Fin ncpu} {k k' : ℕ} (hk : (s.cpuLogs c).Retains k)
    (hk' : (s.cpuLogs c).Retains k') (hlt : k < k') :
    ((s.cpuLogs c).slot k).seq < ((s.cpuLogs c).slot k').seq := by
  obtain ⟨h1, e1⟩ := hr.seq_toNat_of_retains hw hcalls hk
  obtain ⟨h2, e2⟩ := hr.seq_toNat_of_retains hw hcalls hk'
  rw [UInt32.lt_iff_toNat_lt, e1, e2]
  exact List.pairwise_iff_getElem.mp (hw.increasing c) k k' h1 h2 hlt

/-- Two retained slots with one `seq` are the same slot of the same ring. -/
theorem Refines.eq_of_seq_eq {c c' : Fin ncpu} {k k' : ℕ} (hk : (s.cpuLogs c).Retains k)
    (hk' : (s.cpuLogs c').Retains k')
    (heq : ((s.cpuLogs c).slot k).seq = ((s.cpuLogs c').slot k').seq) : c = c' ∧ k = k' := by
  obtain ⟨h1, e1⟩ := hr.seq_toNat_of_retains hw hcalls hk
  obtain ⟨h2, e2⟩ := hr.seq_toNat_of_retains hw hcalls hk'
  have hidx : (H.logs c)[k].index = (H.logs c')[k'].index := by rw [← e1, ← e2, heq]
  obtain rfl : c = c' :=
    hw.disjoint c c' _ (List.getElem_mem h1) _ (List.getElem_mem h2) hidx
  refine ⟨rfl, ?_⟩
  -- on one ring, distinct positions carry increasing call numbers
  by_contra hne
  rcases Nat.lt_or_gt_of_ne hne with hlt | hlt
  · exact UInt32.ne_of_lt (hr.seq_lt_seq hw hcalls hk hk' hlt) heq
  · exact UInt32.ne_of_lt (hr.seq_lt_seq hw hcalls hk' hk hlt) heq.symm

theorem Refines.seq_lt_globalSeq {c : Fin ncpu} {k : ℕ} (hk : (s.cpuLogs c).Retains k) :
    ((s.cpuLogs c).slot k).seq < s.globalSeq := by
  obtain ⟨hlt, e⟩ := hr.seq_toNat_of_retains hw hcalls hk
  rw [UInt32.lt_iff_toNat_lt, e, hr.globalSeq, Nat.mod_eq_of_lt hcalls]
  exact hw.below c _ (List.getElem_mem hlt)

end Below

end Reading

/-! ## The rings hold the last entries logged -/

/-- What the rings of `s` hold, read against the per-CPU logs `L`, each since its ring was last
reset: each `head` is the length of its log; the write positions `k` in the last `min head 256`
of the log hold the `k`-th record in slot `k % 256`, with that CPU in their `cpu` field; and the
`seq`s of the slots each ring retains increase with `k`, are distinct across all rings, and are
below `global_seq`. -/
structure RingsHold (s : KlogState) (L : Fin ncpu → List Record) : Prop where
  head : ∀ c, (s.cpuLogs c).head.toNat = (L c).length
  slot : ∀ c k, (L c).length - min (L c).length klogBufSize ≤ k → ∀ hk : k < (L c).length,
    ((s.cpuLogs c).slot k).view = (L c)[k].view ∧ ((s.cpuLogs c).slot k).cpu = UInt32.ofNat c
  seq_increasing : ∀ c k k', (s.cpuLogs c).Retains k → (s.cpuLogs c).Retains k' → k < k' →
    ((s.cpuLogs c).slot k).seq < ((s.cpuLogs c).slot k').seq
  seq_distinct : ∀ c c' k k', (s.cpuLogs c).Retains k → (s.cpuLogs c').Retains k' →
    (c, k) ≠ (c', k') → ((s.cpuLogs c).slot k).seq ≠ ((s.cpuLogs c').slot k').seq
  seq_lt : ∀ c k, (s.cpuLogs c).Retains k → ((s.cpuLogs c).slot k).seq < s.globalSeq

theorem Refines.ringsHold {H : History} {s : KlogState} (hr : Refines H s) (hw : H.WellFormed)
    (hcalls : H.calls < 2 ^ 32) : RingsHold s H.logs where
  head := hr.head_eq hw hcalls
  slot c k hwin hk := ⟨hr.view_slot c (by omega) hk, hr.cpu_slot hw c (by omega) hk⟩
  seq_increasing _ _ _ := hr.seq_lt_seq hw hcalls
  seq_distinct c c' k k' hk hk' hne heq := hne (by
    obtain ⟨rfl, rfl⟩ := hr.eq_of_seq_eq hw hcalls hk hk' heq
    rfl)
  seq_lt _ _ := hr.seq_lt_globalSeq hw hcalls

/-- **The ring invariant.** In every store reachable from `klog_init` by fewer than `2^32`
logging calls and any clears, the rings hold the last entries logged on each CPU since the last
clear, in write order and with distinct `seq`s below `global_seq`. -/
theorem ring_holds_last_logged (boot : LogCall) (ops : List KlogOp)
    (hcalls : 1 + ops.countP KlogOp.isLog < 2 ^ 32) :
    RingsHold (klogRun (klogInit boot) ops) (historyRun (History.init boot) ops).logs :=
  (refines_reachable boot ops).ringsHold (wellFormed_reachable boot ops)
    ((calls_reachable_le boot ops).trans_lt hcalls)

/-- A call on CPU `cpu` with an empty format and every other input fixed, for concrete runs. -/
def fixedCall (cpu : ℕ) : LogCall :=
  { cpu := cpu, pid := 0, level := klogInfo, fmt := [], args := fun _ ↦ 0, strAt := fun _ ↦ [],
    tsc := (0, 0), stack := fun _ ↦ '\x00' }

/-- After `klog_init` on CPU 0, a call on CPU 1 and one on CPU 0, ring 0 holds two entries and
ring 1 one, each as its log says. -/
theorem ring_holds_last_logged_two_cpus :
    1 + [KlogOp.log (fixedCall 1), .log (fixedCall 0)].countP KlogOp.isLog < 2 ^ 32 ∧
    ((klogRun (klogInit (fixedCall 0)) [.log (fixedCall 1), .log (fixedCall 0)]).cpuLogs 0).head =
      2 ∧
    ((klogRun (klogInit (fixedCall 0)) [.log (fixedCall 1), .log (fixedCall 0)]).cpuLogs 1).head =
      1 ∧
    RingsHold (klogRun (klogInit (fixedCall 0)) [.log (fixedCall 1), .log (fixedCall 0)])
      (historyRun (History.init (fixedCall 0)) [.log (fixedCall 1), .log (fixedCall 0)]).logs :=
  ⟨by decide, by decide, by decide,
    ring_holds_last_logged (fixedCall 0) [.log (fixedCall 1), .log (fixedCall 0)] (by decide)⟩

end Klog

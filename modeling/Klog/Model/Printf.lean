import Klog.Model.Format
import Klog.Lib.RingWindow

/-!
# Logging, clearing and starting the store

`klog_printf_internal` formats its message, then with interrupts off and its ring's lock held
takes a sequence number from `global_seq` under `seq_lock`, builds the entry in slot
`head % KLOG_BUF_SIZE` of its CPU's ring and advances `head`. `klog_clear` resets every ring's
`head` and `dropped` and nothing else; `klog_init` does the same to static storage and logs one
message from the boot CPU.

## Atomicity

A call's locked section touches its own ring and `global_seq` only, and `global_seq` only under
`seq_lock`, so two calls on different CPUs commute except in the order they take their numbers.
Each call is therefore one step here, placed where it takes its number.

`klog_clear` is not one locked section but `NCPU` of them: for each `cpu_id` in turn it takes
that ring's lock, resets the ring and drops the lock. A call on another CPU can take its number
between two of these sections, and so log on a ring already reset, or on one still to be reset.
Each section is therefore a step of its own, `KlogOp.clearRing c`, and a `klog_clear` is the
`NCPU` of them in order (`klogClearOps`), with whatever calls fall between them. Where nothing
falls between them, the sections reset all rings at once (`klogRun_klogClearOps`): that is
`klogClear`, which is also what the loop of `klog_init` does before any other CPU runs.

A run of the kernel's logging is a list of `KlogOp`s applied from the state `klog_init` leaves.
-/

namespace Klog

/-- What a call of `klog_printf_internal` reads from outside the store. -/
structure LogCall where
  /-- `cpuid()`. -/
  cpu : ℕ
  /-- `myproc()->pid`, or `0` with no current process. -/
  pid : ℤ
  /-- The `level` argument. -/
  level : ℤ
  /-- The format string, up to its terminating NUL. -/
  fmt : List Char
  /-- The words at `ap`, `ap + 1`, …. -/
  args : ℕ → UInt32
  /-- The NUL-terminated string at each address, for `%s`. -/
  strAt : UInt32 → List Char
  /-- `rdtsc`: the high and the low word. -/
  tsc : UInt32 × UInt32
  /-- What the uninitialized `char buf[64]` holds. -/
  stack : ℕ → Char

/-- The line `klog_printf_internal` formats for a call. -/
def LogCall.line (call : LogCall) : LineBuf :=
  formatLine call.stack call.fmt call.args call.strAt

/-- The entry a call builds with sequence number `seq` in a slot whose message was `old`. -/
def LogCall.toEntry (call : LogCall) (seq : UInt32) (old : Fin 64 → Char) : KlogEntry where
  seq := seq
  timestampHi := call.tsc.1
  timestampLo := call.tsc.2
  cpu := UInt32.ofNat call.cpu
  pid := UInt32.ofInt call.pid
  level := UInt32.ofInt call.level
  msg := copyMsg call.line.bytes old

/-- `next_seq`: the current `global_seq`, and the store with it advanced. -/
def nextSeq (s : KlogState) : UInt32 × KlogState :=
  (s.globalSeq, { s with globalSeq := s.globalSeq + 1 })

/-- The ring write of `klog_printf_internal`: slot `head % KLOG_BUF_SIZE` receives the entry
built over what it held, and `head` advances. -/
def KlogCpuBuf.write (b : KlogCpuBuf) (mk : (Fin 64 → Char) → KlogEntry) : KlogCpuBuf :=
  let idx := Fin.ofNat klogBufSize b.head.toNat
  { b with entries := Function.update b.entries idx (mk (b.entries idx).msg), head := b.head + 1 }

/-- `klog_printf_internal(level, fmt, ap)`. A call on a CPU number out of range returns before
touching the store. -/
def klogPrintfInternal (s : KlogState) (call : LogCall) : KlogState :=
  if h : call.cpu < ncpu then
    let c : Fin ncpu := ⟨call.cpu, h⟩
    let (seq, s) := nextSeq s
    s.setLog c ((s.cpuLogs c).write (call.toEntry seq))
  else s

/-- `klog_printf(fmt, ...)`: the `KLOG_INFO` level. -/
def klogPrintf (s : KlogState) (call : LogCall) : KlogState :=
  klogPrintfInternal s { call with level := klogInfo }

/-- `klog_printf_level(level, fmt, ...)`, behind the macros `klog_debug` … `klog_error`. -/
def klogPrintfLevel (s : KlogState) (level : ℤ) (call : LogCall) : KlogState :=
  klogPrintfInternal s { call with level := level }

/-- The locked section of `klog_clear` for `cpu_id = c`: ring `c`'s `head` and `dropped` back to
zero; its slots, the other rings and `global_seq` stay. -/
def klogClearRing (s : KlogState) (c : Fin ncpu) : KlogState :=
  s.setLog c { s.cpuLogs c with head := 0, dropped := 0 }

/-- Every ring's `head` and `dropped` back to zero at once: the loop of `klog_init`, and a
`klog_clear` with no call between its sections. -/
def klogClear (s : KlogState) : KlogState :=
  { s with cpuLogs := fun c ↦ { s.cpuLogs c with head := 0, dropped := 0 } }

/-- `klog_get_dropped`: the sum of the rings' `dropped` counters, as a `uint`. -/
def klogGetDropped (s : KlogState) : UInt32 :=
  (List.finRange ncpu).foldl (fun total c ↦ total + (s.cpuLogs c).dropped) 0

/-- The message `klog_init` logs. -/
def klogInitMsg : List Char := "klog: logging subsystem initialized".toList

/-- `klog_init`, from static storage. Its loop resets the fields `klog_clear` resets; then the
boot CPU logs `klogInitMsg` through `klog_printf`, with no current process. -/
def klogInit (boot : LogCall) : KlogState :=
  klogPrintf (klogClear KlogState.zero) { boot with fmt := klogInitMsg, pid := 0 }

/-! ## Runs -/

/-- One step of a run: a logging call, or one locked section of `klog_clear`. -/
inductive KlogOp where
  | log (call : LogCall)
  | clearRing (c : Fin ncpu)

/-- Whether a step is a logging call. -/
def KlogOp.isLog : KlogOp → Bool
  | .log _ => true
  | .clearRing _ => false

/-- The effect of one step on the store. -/
def KlogOp.apply : KlogOp → KlogState → KlogState
  | .log call, s => klogPrintfInternal s call
  | .clearRing c, s => klogClearRing s c

/-- `klog_clear()`: its sections, `cpu_id = 0` first. -/
def klogClearOps : List KlogOp :=
  (List.finRange ncpu).map KlogOp.clearRing

/-- The runs in which every `klog_clear` runs its sections back to back: no logging call falls
between two of them. -/
inductive WholeClears : List KlogOp → Prop
  | nil : WholeClears []
  | log (call : LogCall) {ops : List KlogOp} : WholeClears ops → WholeClears (.log call :: ops)
  | clear {ops : List KlogOp} : WholeClears ops → WholeClears (klogClearOps ++ ops)

/-- The store after the steps `ops`, in order. -/
def klogRun (s : KlogState) (ops : List KlogOp) : KlogState :=
  ops.foldl (fun s op ↦ op.apply s) s

@[simp] theorem klogRun_nil (s : KlogState) : klogRun s [] = s := rfl

@[simp] theorem klogRun_cons (s : KlogState) (op : KlogOp) (ops : List KlogOp) :
    klogRun s (op :: ops) = klogRun (op.apply s) ops := rfl

theorem klogRun_append (s : KlogState) (ops ops' : List KlogOp) :
    klogRun s (ops ++ ops') = klogRun (klogRun s ops) ops' := by
  rw [klogRun, List.foldl_append]
  rfl

@[simp] theorem klogRun_append_singleton (s : KlogState) (ops : List KlogOp) (op : KlogOp) :
    klogRun s (ops ++ [op]) = op.apply (klogRun s ops) := by
  rw [klogRun_append]
  rfl

/-- **Run induction.** A property of the store that every step keeps holds after every run. -/
theorem klogRun_invariant {I : KlogState → Prop}
    (hstep : ∀ s (op : KlogOp), I s → I (op.apply s)) :
    ∀ (ops : List KlogOp) {s : KlogState}, I s → I (klogRun s ops)
  | [], _, hs => hs
  | op :: ops, s, hs => klogRun_invariant hstep ops (hstep s op hs)

/-! ## One lemma per operation -/

theorem KlogCpuBuf.write_entries (b : KlogCpuBuf) (mk : (Fin 64 → Char) → KlogEntry) :
    (b.write mk).entries =
      RingWindow.push b.entries b.head.toNat (mk (b.entries (Fin.ofNat klogBufSize b.head.toNat)).msg) :=
  rfl

@[simp] theorem KlogCpuBuf.write_head (b : KlogCpuBuf) (mk : (Fin 64 → Char) → KlogEntry) :
    (b.write mk).head = b.head + 1 := rfl

@[simp] theorem KlogCpuBuf.write_dropped (b : KlogCpuBuf) (mk : (Fin 64 → Char) → KlogEntry) :
    (b.write mk).dropped = b.dropped := rfl

/-- **The logging step.** A call on CPU `c < NCPU` takes `global_seq` and writes its entry into
`c`'s ring; every other ring is left alone. -/
theorem klogPrintfInternal_of_lt (s : KlogState) (call : LogCall) (h : call.cpu < ncpu) :
    klogPrintfInternal s call =
      { s with globalSeq := s.globalSeq + 1 }.setLog ⟨call.cpu, h⟩
        ((s.cpuLogs ⟨call.cpu, h⟩).write (call.toEntry s.globalSeq)) := by
  rw [klogPrintfInternal, dif_pos h]
  rfl

theorem klogPrintfInternal_of_le (s : KlogState) (call : LogCall) (h : ncpu ≤ call.cpu) :
    klogPrintfInternal s call = s := by
  rw [klogPrintfInternal, dif_neg (by omega)]

@[simp] theorem klogPrintfInternal_globalSeq (s : KlogState) (call : LogCall)
    (h : call.cpu < ncpu) : (klogPrintfInternal s call).globalSeq = s.globalSeq + 1 := by
  rw [klogPrintfInternal_of_lt s call h]
  rfl

@[simp] theorem klogPrintfInternal_cpuLogs_self (s : KlogState) (call : LogCall)
    (h : call.cpu < ncpu) : (klogPrintfInternal s call).cpuLogs ⟨call.cpu, h⟩ =
      (s.cpuLogs ⟨call.cpu, h⟩).write (call.toEntry s.globalSeq) := by
  rw [klogPrintfInternal_of_lt s call h, KlogState.setLog_cpuLogs_self]

/-- A logging call touches no other CPU's ring. -/
theorem klogPrintfInternal_cpuLogs_of_ne (s : KlogState) (call : LogCall) {d : Fin ncpu}
    (h : d.val ≠ call.cpu) : (klogPrintfInternal s call).cpuLogs d = s.cpuLogs d := by
  by_cases hc : call.cpu < ncpu
  · rw [klogPrintfInternal_of_lt s call hc, KlogState.setLog_cpuLogs_of_ne _ _ (Fin.ne_of_val_ne h)]
  · rw [klogPrintfInternal_of_le s call (by omega)]

@[simp] theorem klogClear_cpuLogs (s : KlogState) (c : Fin ncpu) :
    (klogClear s).cpuLogs c = { s.cpuLogs c with head := 0, dropped := 0 } := rfl

@[simp] theorem klogClear_globalSeq (s : KlogState) : (klogClear s).globalSeq = s.globalSeq := rfl

@[simp] theorem klogClearRing_cpuLogs_self (s : KlogState) (c : Fin ncpu) :
    (klogClearRing s c).cpuLogs c = { s.cpuLogs c with head := 0, dropped := 0 } :=
  KlogState.setLog_cpuLogs_self _ _ _

/-- A section of `klog_clear` touches no other CPU's ring. -/
@[simp] theorem klogClearRing_cpuLogs_of_ne (s : KlogState) {c d : Fin ncpu} (h : d ≠ c) :
    (klogClearRing s c).cpuLogs d = s.cpuLogs d :=
  KlogState.setLog_cpuLogs_of_ne _ _ h

@[simp] theorem klogClearRing_globalSeq (s : KlogState) (c : Fin ncpu) :
    (klogClearRing s c).globalSeq = s.globalSeq := rfl

/-- The sections for the CPUs `cs`, back to back, reset exactly those rings. -/
theorem klogRun_map_clearRing (cs : List (Fin ncpu)) (s : KlogState) :
    klogRun s (cs.map KlogOp.clearRing) = { s with cpuLogs := fun c ↦
      if c ∈ cs then { s.cpuLogs c with head := 0, dropped := 0 } else s.cpuLogs c } := by
  induction cs generalizing s with
  | nil => rfl
  | cons a cs ih =>
    rw [List.map_cons, klogRun_cons, KlogOp.apply, ih]
    congr 1
    funext c
    by_cases hc : c = a
    · subst hc
      simp
    · simp [hc]

/-- **A whole `klog_clear`.** With no call between its sections, `klog_clear` resets all rings
at once. -/
theorem klogRun_klogClearOps (s : KlogState) : klogRun s klogClearOps = klogClear s := by
  rw [klogClearOps, klogRun_map_clearRing]
  simp [klogClear]

end Klog

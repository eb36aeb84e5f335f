import Mathlib

/-!
# The klog store: entries, per-CPU rings and the sequence counter

The data of `klog.h` and the static storage of `klog.c`. A `struct klog_entry` is six `uint`
fields and a 64-byte message; a `struct klog_cpu_buf` is a ring of `KLOG_BUF_SIZE = 256` entries
with a write counter `head` and a counter `dropped`; the store is one ring per CPU, `NCPU = 8`
of them, and the global counter `global_seq`.

## Representation

Every `uint` of the source is a `UInt32`, so that the counters wrap where the source's do. The
fixed arrays are functions out of `Fin`: a write is `Function.update`, and no index can leave the
array. The spinlocks are not data here: every locked section is one step of the model, and what
may run between two sections is said where the sections are composed.

A message is the whole 64-byte array. The copy into an entry writes a prefix and a NUL and
leaves the bytes after the NUL as the slot's previous message had them, so what an entry *says*
is `cstr msg`, the bytes before the first NUL.
-/

namespace Klog

/-- `NCPU` (`param.h`). -/
def ncpu : ℕ := 8

/-- `KLOG_BUF_SIZE` (`klog.h`). -/
def klogBufSize : ℕ := 256

/-- `sizeof(struct klog_entry)`: six `uint`s and 64 message bytes. -/
def klogEntrySize : ℕ := 88

theorem klogEntrySize_eq : klogEntrySize = 88 := rfl

/-- `KLOG_INFO`, the level of `klog_printf`. -/
def klogInfo : ℤ := 1

instance : NeZero klogBufSize := ⟨by decide⟩

instance : NeZero ncpu := ⟨by decide⟩

/-- `struct klog_entry`. -/
structure KlogEntry where
  /-- Global sequence number. -/
  seq : UInt32
  /-- High 32 bits of the time stamp counter. -/
  timestampHi : UInt32
  /-- Low 32 bits of the time stamp counter. -/
  timestampLo : UInt32
  /-- CPU the entry was logged on. -/
  cpu : UInt32
  /-- Process id, `0` for the kernel. -/
  pid : UInt32
  /-- Log level. -/
  level : UInt32
  /-- `char msg[64]`. -/
  msg : Fin 64 → Char
  deriving DecidableEq

/-- The bytes of a 64-byte C string before its first NUL. -/
def cstr (msg : Fin 64 → Char) : List Char :=
  ((List.range 64).map fun i ↦ msg (Fin.ofNat 64 i)).takeWhile (· ≠ '\x00')

/-- A zeroed entry, as static storage starts. -/
def KlogEntry.zero : KlogEntry :=
  ⟨0, 0, 0, 0, 0, 0, fun _ ↦ '\x00'⟩

/-- `struct klog_cpu_buf`, without its lock. -/
structure KlogCpuBuf where
  /-- `entries[KLOG_BUF_SIZE]`. -/
  entries : Fin klogBufSize → KlogEntry
  /-- Next write position; it counts writes, and the slot is `head % KLOG_BUF_SIZE`. -/
  head : UInt32
  /-- Count of dropped entries due to overflow. -/
  dropped : UInt32

/-- `log->entries[i % KLOG_BUF_SIZE]`. -/
def KlogCpuBuf.slot (b : KlogCpuBuf) (i : ℕ) : KlogEntry :=
  b.entries (Fin.ofNat klogBufSize i)

/-- Write position `k` is one the ring retains by its own arithmetic:
`head - min(head, KLOG_BUF_SIZE) ≤ k < head`. -/
def KlogCpuBuf.Retains (b : KlogCpuBuf) (k : ℕ) : Prop :=
  b.head.toNat - min b.head.toNat klogBufSize ≤ k ∧ k < b.head.toNat

/-- The static state of the store: `cpu_logs[NCPU]` and `global_seq`. -/
structure KlogState where
  /-- `cpu_logs[NCPU]`. -/
  cpuLogs : Fin ncpu → KlogCpuBuf
  /-- `global_seq`, the next sequence number. -/
  globalSeq : UInt32

/-- Static storage before `klog_init`: everything zero. -/
def KlogState.zero : KlogState :=
  ⟨fun _ ↦ ⟨fun _ ↦ KlogEntry.zero, 0, 0⟩, 0⟩

/-- Replace the ring of CPU `c`. -/
def KlogState.setLog (s : KlogState) (c : Fin ncpu) (b : KlogCpuBuf) : KlogState :=
  { s with cpuLogs := Function.update s.cpuLogs c b }

@[simp] theorem KlogState.setLog_cpuLogs_self (s : KlogState) (c : Fin ncpu) (b : KlogCpuBuf) :
    (s.setLog c b).cpuLogs c = b := by
  simp [KlogState.setLog]

@[simp] theorem KlogState.setLog_cpuLogs_of_ne (s : KlogState) {c d : Fin ncpu} (b : KlogCpuBuf)
    (h : d ≠ c) : (s.setLog c b).cpuLogs d = s.cpuLogs d := by
  simp [KlogState.setLog, h]

@[simp] theorem KlogState.setLog_globalSeq (s : KlogState) (c : Fin ncpu) (b : KlogCpuBuf) :
    (s.setLog c b).globalSeq = s.globalSeq := rfl

end Klog

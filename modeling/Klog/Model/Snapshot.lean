import Klog.Model.Printf
import Klog.Lib.BubbleSort

/-!
# `klog_snapshot`

Two passes over the rings, each holding one ring's lock at a time, and a bubble sort of what
was collected. The counting pass adds up how many entries each ring retains (`256` once it has
wrapped, else `head`) and finds the smallest sequence number among the slots it counts. The
copying pass goes through the rings in CPU order and through each ring's retained write
positions in order, copies the entries whose sequence number is at least
`min_seq + skip_count`, where `skip_count` is how many more entries the rings retain than the
caller asked for, and stops once `max_entries` entries are copied.

## One view per locked section

Each ring is read in two locked sections, one per pass, and other CPUs may log between any two
sections. The snapshot is therefore defined from the ring each section sees: `seen c` in the
counting pass and `copied c` in the copying pass (`klogSnapshotOf`). `klogSnapshot` on one store
is the case where every section sees that store.

## Faults

The caller's `buf` is a list of the entries it can hold. A write or a read outside it is a fault
(`none`): the source would be writing or reading memory that is not the caller's buffer. The
loop counters `i` and `j` of the sort are `uint` and are compared with the `int` expressions
`count - 1` and `count - i - 1`, so those bounds are taken as the source computes them, converted
to `uint`.
-/

namespace Klog

/-- `for(i = 0; i < n; i++) if(log->entries[i].seq < min_seq) min_seq = log->entries[i].seq;` -/
def scanMinSeq (b : KlogCpuBuf) (n : ℕ) (minSeq : UInt32) : UInt32 :=
  (List.range n).foldl (fun m i ↦ if (b.slot i).seq < m then (b.slot i).seq else m) minSeq

/-- The section of the counting pass on one ring: `total` and `min_seq` updated. -/
def countRing (acc : ℤ × UInt32) (b : KlogCpuBuf) : ℤ × UInt32 :=
  if b.head > 256 then (acc.1 + 256, scanMinSeq b 256 acc.2)
  else (acc.1 + b.head.toNat, scanMinSeq b b.head.toNat acc.2)

/-- The counting pass over the rings as its sections saw them: `(total, min_seq)`. -/
def countPass (seen : Fin ncpu → KlogCpuBuf) : ℤ × UInt32 :=
  (List.finRange ncpu).foldl (fun acc c ↦ countRing acc (seen c)) (0, 0xFFFFFFFF)

/-- `buf[count] = e`, a fault outside `buf`. -/
def storeAt (buf : List KlogEntry) (count : ℤ) (e : KlogEntry) : Option (List KlogEntry) :=
  if 0 ≤ count ∧ count < buf.length then some (buf.set count.toNat e) else none

/-- `for(i = start; i < end && count < max_entries; i++)`, over the write positions `is`:
copy `log->entries[i % KLOG_BUF_SIZE]` when its `seq` reaches the threshold. -/
def copyRange (b : KlogCpuBuf) (maxEntries : ℤ) (threshold : UInt32) :
    List ℕ → ℤ × List KlogEntry → Option (ℤ × List KlogEntry)
  | [], acc => some acc
  | i :: is, (count, buf) =>
    if count < maxEntries then
      if threshold ≤ (b.slot i).seq then do
        let buf ← storeAt buf count (b.slot i)
        copyRange b maxEntries threshold is (count + 1, buf)
      else copyRange b maxEntries threshold is (count, buf)
    else some (count, buf)

/-- The section of the copying pass on one ring: the write positions `[start, end)` it
retains, copied in order. -/
def copyRing (maxEntries : ℤ) (threshold : UInt32) (acc : ℤ × List KlogEntry)
    (b : KlogCpuBuf) : Option (ℤ × List KlogEntry) :=
  let (start, stop) : UInt32 × UInt32 :=
    if b.head > 256 then (b.head - 256, b.head) else (0, b.head)
  copyRange b maxEntries threshold (List.range' start.toNat (stop.toNat - start.toNat)) acc

/-- The copying pass over the rings as its sections saw them, into `buf`. -/
def copyPass (copied : Fin ncpu → KlogCpuBuf) (maxEntries : ℤ) (threshold : UInt32)
    (buf : List KlogEntry) : Option (ℤ × List KlogEntry) :=
  (List.finRange ncpu).foldlM (fun acc c ↦ copyRing maxEntries threshold acc (copied c)) (0, buf)

/-- The closing sort,
`for(i = 0; i < count - 1; i++) for(j = 0; j < count - i - 1; j++) if(buf[j].seq > buf[j+1].seq) …`,
with `uint` counters: both bounds are converted to `uint` before the comparison. -/
def sortBySeq (count : ℤ) (buf : List KlogEntry) : Option (List KlogEntry) :=
  BubbleSort.loop (fun e : KlogEntry ↦ e.seq.toNat) (UInt32.ofInt (count - 1)).toNat
    (fun i ↦ (UInt32.ofInt count - UInt32.ofNat i - 1).toNat) buf

/-- `klog_snapshot(buf, max_entries)` with the rings each section saw: the count returned and
the caller's buffer afterwards. -/
def klogSnapshotOf (seen copied : Fin ncpu → KlogCpuBuf) (buf : List KlogEntry)
    (maxEntries : ℤ) : Option (ℤ × List KlogEntry) :=
  let (total, minSeq) := countPass seen
  let skipCount : ℤ := if total > maxEntries then total - maxEntries else 0
  do
    let (count, buf) ← copyPass copied maxEntries (minSeq + UInt32.ofInt skipCount) buf
    let buf ← sortBySeq count buf
    pure (count, buf)

/-- `klog_snapshot(buf, max_entries)` on a store that no other CPU changes meanwhile. -/
def klogSnapshot (s : KlogState) (buf : List KlogEntry) (maxEntries : ℤ) :
    Option (ℤ × List KlogEntry) :=
  klogSnapshotOf s.cpuLogs s.cpuLogs buf maxEntries

end Klog

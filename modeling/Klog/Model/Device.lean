import Klog.Model.Snapshot

/-!
# The two readers: `/dev/klog` and `getklog`

`klogdev_read` takes a snapshot of up to 64 entries into a stack array and copies whole entries
to the reader while they fit in `n` bytes. `sys_getklog` checks its two arguments against the
calling process's size, takes a snapshot into a freshly allocated page, copies the entries out
one by one and frees the page.

## What is a parameter

`copyout` (`vm.c`) walks the page table; here it is a function saying whether the copy of one
entry to a user address succeeds, with the copies that succeeded recorded in order. `kalloc`
(`kalloc.c`) hands out a page: its result is an input, `none` when memory is exhausted, else the
entries the page can hold as they stand; `kfree` is counted. `argint` is the `int` it read, or
`none` when the argument address was bad. The device state `klogdev.last_seq` is set by
`klogdev_init` and read by nothing, so it does not appear.
-/

namespace Klog

/-- `PGSIZE / sizeof(struct klog_entry)`: the entries a page holds. -/
def maxFit : ℤ := 4096 / klogEntrySize

/-- `for(i = 0; i < count && copied + sizeof(struct klog_entry) <= n; i++)`, over the snapshot
entries `entries[0..count)`: each entry goes to `(uint)dst + copied`. The comparison is done in
`uint`, both sides converted. A failed `copyout` ends the read with `-1`. -/
def klogdevCopy (copyout : UInt32 → KlogEntry → Bool) (dst : UInt32) (n : ℤ) :
    List KlogEntry → ℤ → List (UInt32 × KlogEntry) → ℤ × List (UInt32 × KlogEntry)
  | [], copied, out => (copied, out)
  | e :: es, copied, out =>
    if UInt32.ofInt copied + UInt32.ofNat klogEntrySize ≤ UInt32.ofInt n then
      let va := dst + UInt32.ofInt copied
      if copyout va e then klogdevCopy copyout dst n es (copied + klogEntrySize) (out ++ [(va, e)])
      else (-1, out)
    else (copied, out)

/-- `klogdev_read(ip, dst, n)`, with `entries` the uninitialized stack array
`struct klog_entry entries[64]`: the value returned and the entries copied, with their user
addresses.

That array takes `64 * 88 = 5632` bytes of a kernel stack of `KSTACKSIZE = 4096` bytes, so the
snapshot's writes into it run past the stack's page into whatever lies below. The model gives
the array as a list the read owns and does not model the memory it overruns. -/
def klogdevRead (copyout : UInt32 → KlogEntry → Bool) (s : KlogState)
    (entries : List KlogEntry) (dst : UInt32) (n : ℤ) :
    Option (ℤ × List (UInt32 × KlogEntry)) := do
  let (count, entries) ← klogSnapshot s entries 64
  pure (klogdevCopy copyout dst n (entries.take count.toNat) 0 [])

/-- What a call of `sys_getklog` did: the value returned, the entries copied to user memory
with their addresses, whether a page was allocated and how many times it was freed. -/
structure GetklogResult where
  /-- The system call's return value. -/
  ret : ℤ
  /-- The successful `copyout`s, in order. -/
  copies : List (UInt32 × KlogEntry)
  /-- Whether `kalloc` was called and returned a page. -/
  allocated : Bool
  /-- How many times `kfree` was called on that page. -/
  frees : ℕ

/-- A return of `-1` before anything was allocated. -/
def GetklogResult.fail : GetklogResult := ⟨-1, [], false, 0⟩

/-- The copy loop of `sys_getklog`: entry `i` goes to `(uint)buf_addr + i * sizeof(struct klog_entry)`.
The flag says whether every `copyout` succeeded. -/
def getklogCopy (copyout : UInt32 → KlogEntry → Bool) (bufAddr : UInt32) :
    ℕ → List KlogEntry → Bool × List (UInt32 × KlogEntry)
  | _, [] => (true, [])
  | i, e :: es =>
    let va := bufAddr + UInt32.ofNat i * UInt32.ofNat klogEntrySize
    if copyout va e then
      let (ok, out) := getklogCopy copyout bufAddr (i + 1) es
      (ok, (va, e) :: out)
    else (false, [])

/-- `sys_getklog()`, for the arguments `argint` read, a process of size `sz`, the page `kalloc`
returns and the store; `none` when the snapshot faults. -/
def sysGetklog (arg0 arg1 : Option ℤ) (sz : UInt32) (kalloc : Option (List KlogEntry))
    (copyout : UInt32 → KlogEntry → Bool) (s : KlogState) : Option GetklogResult :=
  match arg0, arg1 with
  | none, _ => some .fail
  | _, none => some .fail
  | some bufAddr, some maxEntries =>
    if maxEntries ≤ 0 ∨ maxEntries > 1024 then some .fail
    -- `buf_addr >= curproc->sz` compares as `uint`; `buf_addr < 0` was tested first
    else if bufAddr < 0 ∨ UInt32.ofInt bufAddr ≥ sz then some .fail
    -- `buf_addr + max_entries * sizeof(struct klog_entry)` is computed in `uint`
    else if UInt32.ofInt bufAddr + UInt32.ofInt maxEntries * UInt32.ofNat klogEntrySize > sz then
      some .fail
    else
      match kalloc with
      | none => some .fail
      | some kbuf => do
        let maxEntries := if maxEntries > maxFit then maxFit else maxEntries
        let (count, kbuf) ← klogSnapshot s kbuf maxEntries
        let (ok, copies) := getklogCopy copyout (UInt32.ofInt bufAddr) 0 (kbuf.take count.toNat)
        if ok then pure ⟨count, copies, true, 1⟩ else pure ⟨-1, copies, true, 1⟩

end Klog

import Klog.Model.Device
import Klog.Snapshot.Concurrent

/-!
# `getklog`: the user's range and the copies into it

`sys_getklog(buf_addr, max_entries)` rejects a count outside `[1, 1024]` and a buffer that does
not lie in the process, takes a snapshot of at most a page of entries into a fresh page, copies
entry `i` to `buf_addr + i * sizeof(struct klog_entry)` and frees the page.

## The range check

`buf_addr >= curproc->sz` and `buf_addr + max_entries * sizeof(struct klog_entry) > curproc->sz`
are evaluated in `uint`: `buf_addr` is converted, and so is the product, since `sizeof` is a
`size_t`. Once `buf_addr < 0` and `max_entries ∉ [1, 1024]` have been rejected, `buf_addr` is
below `2^31` and the product at most `90112`, so the sum does not wrap and the check means what
it says (`range_check_iff`). Every address the copy loop hands to `copyout` then lies in
`[buf_addr, buf_addr + max_entries * 88)`, inside `[0, sz)`: the call's result depends on
`copyout` only there (`sysGetklog_congr`).

## The count

The count is the snapshot's, at most the clamped `max_entries`. A snapshot of a store that
retains nothing faults (`Klog.Snapshot.Concurrent`), and `sys_getklog` with it, with the page
allocated and never freed.
-/

namespace Klog

/-! ## The copy loop -/

/-- The copies the loop of `sys_getklog` plans for `es` from index `i`: entry `j` to
`buf_addr + j * sizeof(struct klog_entry)`. -/
def getklogTargets (bufAddr : UInt32) (i : ℕ) (es : List KlogEntry) : List (UInt32 × KlogEntry) :=
  ((List.range' i es.length).map
    fun j ↦ bufAddr + UInt32.ofNat j * UInt32.ofNat klogEntrySize).zip es

@[simp] theorem getklogTargets_nil (bufAddr : UInt32) (i : ℕ) : getklogTargets bufAddr i [] = [] :=
  rfl

theorem getklogTargets_cons (bufAddr : UInt32) (i : ℕ) (e : KlogEntry) (es : List KlogEntry) :
    getklogTargets bufAddr i (e :: es) =
      (bufAddr + UInt32.ofNat i * UInt32.ofNat klogEntrySize, e) :: getklogTargets bufAddr (i + 1) es := by
  simp [getklogTargets, List.range'_succ]

/-- A planned copy goes to `buf_addr + j * 88` for an index `j` of `es`. -/
theorem mem_getklogTargets {bufAddr : UInt32} {es : List KlogEntry} {p : UInt32 × KlogEntry}
    (hp : p ∈ getklogTargets bufAddr 0 es) :
    ∃ j < es.length, p.1 = bufAddr + UInt32.ofNat j * UInt32.ofNat klogEntrySize := by
  obtain ⟨hfst, -⟩ := List.of_mem_zip hp
  obtain ⟨j, hj, hva⟩ := List.mem_map.mp hfst
  exact ⟨j, by simpa using hj, hva.symm⟩

/-- **The copy loop.** The copies that succeeded are a prefix of the planned ones, and all of
them when the loop reports success. -/
theorem getklogCopy_spec (copyout : UInt32 → KlogEntry → Bool) (bufAddr : UInt32) :
    ∀ (i : ℕ) (es : List KlogEntry),
      (getklogCopy copyout bufAddr i es).2 <+: getklogTargets bufAddr i es ∧
      ((getklogCopy copyout bufAddr i es).1 = true →
        (getklogCopy copyout bufAddr i es).2 = getklogTargets bufAddr i es)
  | i, [] => by simp [getklogCopy]
  | i, e :: es => by
    obtain ⟨ih, ihok⟩ := getklogCopy_spec copyout bufAddr (i + 1) es
    rw [getklogTargets_cons, getklogCopy]
    by_cases hva : copyout (bufAddr + UInt32.ofNat i * UInt32.ofNat klogEntrySize) e
    · simp only [hva, if_true]
      exact ⟨(List.prefix_cons_inj _).mpr ih, fun hok ↦ congrArg _ (ihok hok)⟩
    · simp [hva]

/-- The copy loop consults `copyout` at its planned copies only. -/
theorem getklogCopy_congr {copyout copyout' : UInt32 → KlogEntry → Bool} (bufAddr : UInt32) :
    ∀ (i : ℕ) (es : List KlogEntry), (∀ p ∈ getklogTargets bufAddr i es, copyout' p.1 p.2 = copyout p.1 p.2) →
      getklogCopy copyout' bufAddr i es = getklogCopy copyout bufAddr i es
  | i, [] => fun _ ↦ rfl
  | i, e :: es => fun h ↦ by
    rw [getklogTargets_cons] at h
    have hhead := h _ List.mem_cons_self
    have htail := getklogCopy_congr bufAddr (i + 1) es fun p hp ↦ h p (List.mem_cons_of_mem _ hp)
    simp only [getklogCopy, hhead, htail]

/-! ## The range check -/

section Range

variable {b M : ℕ} (hb : b < 2 ^ 31) (hM : M ≤ 1024)
include hb hM

/-- **The range check does not wrap.** With `buf_addr` below `2^31` and `max_entries` at most
`1024`, `buf_addr + max_entries * sizeof(struct klog_entry) > sz` in `uint` is the comparison of
the plain numbers. -/
theorem range_check_iff (sz : UInt32) :
    UInt32.ofInt b + UInt32.ofInt M * UInt32.ofNat klogEntrySize > sz ↔
      sz.toNat < b + M * klogEntrySize := by
  rw [klogEntrySize_eq]
  have hprod : (UInt32.ofInt M * UInt32.ofNat 88).toNat = M * 88 := by
    rw [UInt32.toNat_mul, toNat_ofInt_natCast (by omega), UInt32.toNat_ofNat',
      Nat.mod_eq_of_lt (show 88 < 2 ^ 32 by decide)]
    exact Nat.mod_eq_of_lt (by omega)
  have hsum : (UInt32.ofInt b + UInt32.ofInt M * UInt32.ofNat 88).toNat = b + M * 88 := by
    rw [UInt32.toNat_add, hprod, toNat_ofInt_natCast (by omega)]
    exact Nat.mod_eq_of_lt (by omega)
  rw [GT.gt, UInt32.lt_iff_toNat_lt, hsum]

/-- Entry `j < max_entries` goes to `buf_addr + j * 88`, with no wrap. -/
theorem target_toNat {j : ℕ} (hj : j < M) :
    (UInt32.ofInt b + UInt32.ofNat j * UInt32.ofNat klogEntrySize).toNat = b + j * klogEntrySize := by
  have hprod : (UInt32.ofNat j * UInt32.ofNat 88).toNat = j * 88 := by
    rw [UInt32.toNat_mul, UInt32.toNat_ofNat', UInt32.toNat_ofNat',
      Nat.mod_eq_of_lt (show 88 < 2 ^ 32 by decide), Nat.mod_eq_of_lt (show j < 2 ^ 32 by omega)]
    exact Nat.mod_eq_of_lt (by omega)
  rw [klogEntrySize_eq, UInt32.toNat_add, hprod, toNat_ofInt_natCast (by omega)]
  exact Nat.mod_eq_of_lt (by omega)

end Range

/-! ## The snapshot's count -/

/-- Whatever the rings hold, a snapshot that returns counts at most `max_entries`. -/
theorem klogSnapshot_count_le {s : KlogState} {buf : List KlogEntry} {m : ℕ}
    (hm : m ≤ buf.length) (h32 : buf.length < 2 ^ 32) {count : ℤ} {buf' : List KlogEntry}
    (h : klogSnapshot s buf m = some (count, buf')) : 0 ≤ count ∧ count ≤ m := by
  obtain ⟨hnone, hsome⟩ := klogSnapshotOf_spec s.cpuLogs s.cpuLogs hm h32
  by_cases hsel : (selected s.cpuLogs (snapshotThreshold s.cpuLogs m)).take m = []
  · rw [klogSnapshot, hnone hsel] at h
    cases h
  · obtain ⟨b, hb, -⟩ := hsome hsel
    rw [klogSnapshot, hb] at h
    obtain ⟨rfl, -⟩ := Prod.mk.inj (Option.some.inj h)
    have hle := List.length_take_le m (selected s.cpuLogs (snapshotThreshold s.cpuLogs m))
    omega

/-! ## The system call, past its checks -/

theorem maxFit_eq : maxFit = 46 := by decide

/-- The checks of `sys_getklog` on its arguments, as the plain comparisons they come to for a
`buf_addr` below `2^31`. -/
def GetklogArgsOk (bufAddr maxEntries : ℤ) (sz : UInt32) : Prop :=
  0 < maxEntries ∧ maxEntries ≤ 1024 ∧ 0 ≤ bufAddr ∧ bufAddr + maxEntries * klogEntrySize ≤ sz.toNat

/-- Checked arguments ask for between one entry and a page of them, once clamped to a page. -/
theorem GetklogArgsOk.clamp {bufAddr maxEntries : ℤ} {sz : UInt32}
    (hargs : GetklogArgsOk bufAddr maxEntries sz) :
    ∃ M : ℕ, 1 ≤ M ∧ M ≤ 46 ∧ min maxEntries maxFit = M := by
  obtain ⟨hM1, -, -, -⟩ := hargs
  refine ⟨(min maxEntries maxFit).toNat, ?_, ?_, ?_⟩ <;> rw [maxFit_eq] <;> omega

/-- What `sys_getklog` does after the snapshot `(count, kbuf)`: the copy loop, one `kfree`, and
the count or `-1`. -/
def getklogFinish (copyout : UInt32 → KlogEntry → Bool) (bufAddr : UInt32)
    (r : ℤ × List KlogEntry) : GetklogResult :=
  let (ok, copies) := getklogCopy copyout bufAddr 0 (r.2.take r.1.toNat)
  if ok then ⟨r.1, copies, true, 1⟩ else ⟨-1, copies, true, 1⟩

section Checks

variable {bufAddr maxEntries : ℤ} (hb : bufAddr < 2 ^ 31) (sz : UInt32)
  (kalloc : Option (List KlogEntry)) (copyout : UInt32 → KlogEntry → Bool) (s : KlogState)
include hb

/-- Arguments that fail a check make `sys_getklog` return `-1` before it allocates. -/
theorem sysGetklog_of_not_argsOk (h : ¬GetklogArgsOk bufAddr maxEntries sz) :
    sysGetklog (some bufAddr) (some maxEntries) sz kalloc copyout s = some .fail := by
  unfold sysGetklog
  dsimp only
  by_cases hM : maxEntries ≤ 0 ∨ maxEntries > 1024
  · rw [if_pos hM]
  rw [if_neg hM]
  by_cases hB : bufAddr < 0 ∨ UInt32.ofInt bufAddr ≥ sz
  · rw [if_pos hB]
  rw [if_neg hB]
  obtain ⟨b, rfl⟩ := Int.eq_ofNat_of_zero_le (a := bufAddr) (by omega)
  obtain ⟨M, rfl⟩ := Int.eq_ofNat_of_zero_le (a := maxEntries) (by omega)
  -- the last check is the one that fails
  have hR : UInt32.ofInt (b : ℤ) + UInt32.ofInt (M : ℤ) * UInt32.ofNat klogEntrySize > sz := by
    rw [range_check_iff (by omega) (by omega)]
    simp only [GetklogArgsOk, not_and, not_le] at h
    exact_mod_cast h (by omega) (by omega) (by omega)
  rw [if_pos hR]

/-- **`sys_getklog` past its checks**: the page, a snapshot of at most a page of entries into
it, and the copy loop. -/
theorem sysGetklog_of_argsOk (h : GetklogArgsOk bufAddr maxEntries sz) :
    sysGetklog (some bufAddr) (some maxEntries) sz kalloc copyout s =
      kalloc.elim (some .fail) fun page ↦
        (klogSnapshot s page (min maxEntries maxFit)).map (getklogFinish copyout (UInt32.ofInt bufAddr)) := by
  obtain ⟨hM1, hM, hb0, hrange⟩ := h
  obtain ⟨b, rfl⟩ := Int.eq_ofNat_of_zero_le hb0
  obtain ⟨M, rfl⟩ := Int.eq_ofNat_of_zero_le (a := maxEntries) (by omega)
  have hB : ¬((b : ℤ) < 0 ∨ UInt32.ofInt (b : ℤ) ≥ sz) := by
    rw [klogEntrySize_eq] at hrange
    rintro (hneg | hge)
    · omega
    · have := UInt32.le_iff_toNat_le.mp hge
      rw [toNat_ofInt_natCast (by omega)] at this
      omega
  have hR : ¬(UInt32.ofInt (b : ℤ) + UInt32.ofInt (M : ℤ) * UInt32.ofNat klogEntrySize > sz) := by
    rw [range_check_iff (by omega) (by omega)]
    exact_mod_cast not_lt.mpr hrange
  unfold sysGetklog
  dsimp only
  rw [if_neg (by omega), if_neg hB, if_neg hR]
  cases kalloc with
  | none => rfl
  | some page =>
    have hclamp : (if (M : ℤ) > maxFit then maxFit else (M : ℤ)) = min (M : ℤ) maxFit := by
      split_ifs <;> omega
    dsimp only
    rw [hclamp, Option.elim_some]
    cases klogSnapshot s page (min (M : ℤ) maxFit) with
    | none => rfl
    | some r =>
      -- the copy loop's flag picks the value returned, on both sides
      by_cases hok : (getklogCopy copyout (UInt32.ofInt (b : ℤ)) 0 (r.2.take r.1.toNat)).1 = true <;>
        simp [getklogFinish, hok]

end Checks

/-! ## What one call does -/

/-- What one finished call of `sys_getklog` must satisfy, for the arguments `buf_addr` and
`max_entries` it read, a process of size `sz`, what `kalloc` gave and the store `s`. -/
structure GetklogSafe (s : KlogState) (kalloc : Option (List KlogEntry)) (bufAddr maxEntries : ℤ)
    (sz : UInt32) (r : GetklogResult) : Prop where
  /-- `-1`, or a count of at most `max_entries` and at most a page of entries. -/
  ret : r.ret = -1 ∨ 0 ≤ r.ret ∧ r.ret ≤ min maxEntries maxFit
  /-- Every entry copied lies in `[buf_addr, buf_addr + max_entries * 88)`, inside `[0, sz)`. -/
  copies_in_range : ∀ p ∈ r.copies, 0 ≤ bufAddr ∧ bufAddr ≤ p.1.toNat ∧
    p.1.toNat + klogEntrySize ≤ bufAddr + maxEntries * klogEntrySize ∧
    bufAddr + maxEntries * klogEntrySize ≤ sz.toNat
  /-- On success, entry `i` of the snapshot went to `buf_addr + i * 88`, and nothing else did. -/
  copies_of_ok : r.ret ≠ -1 → ∃ page page', kalloc = some page ∧
    klogSnapshot s page (min maxEntries maxFit) = some (r.ret, page') ∧
    r.copies = getklogTargets (UInt32.ofInt bufAddr) 0 (page'.take r.ret.toNat)
  /-- The page is freed once if it was allocated, and never otherwise. -/
  frees : r.frees = if r.allocated then 1 else 0

theorem GetklogSafe.fail {s : KlogState} {kalloc : Option (List KlogEntry)} {bufAddr maxEntries : ℤ}
    {sz : UInt32} : GetklogSafe s kalloc bufAddr maxEntries sz .fail where
  ret := .inl rfl
  copies_in_range _ hp := absurd hp List.not_mem_nil
  copies_of_ok h := absurd rfl h
  frees := rfl

section Finish

variable {bufAddr maxEntries : ℤ} (hb : bufAddr < 2 ^ 31) {sz : UInt32}
  (hargs : GetklogArgsOk bufAddr maxEntries sz) (copyout : UInt32 → KlogEntry → Bool)
  {s : KlogState} {page : List KlogEntry} {count : ℤ} {page' : List KlogEntry}
  (hsnap : klogSnapshot s page (min maxEntries maxFit) = some (count, page'))
  (hcount : 0 ≤ count ∧ count ≤ min maxEntries maxFit)
include hb hargs hcount

/-- Every copy the loop plans for the snapshot lies in the user's range. -/
theorem getklogTargets_in_range {p : UInt32 × KlogEntry}
    (hp : p ∈ getklogTargets (UInt32.ofInt bufAddr) 0 (page'.take count.toNat)) :
    0 ≤ bufAddr ∧ bufAddr ≤ p.1.toNat ∧ p.1.toNat + klogEntrySize ≤ bufAddr + maxEntries * klogEntrySize ∧
      bufAddr + maxEntries * klogEntrySize ≤ sz.toNat := by
  obtain ⟨hM1, hM, hb0, hrange⟩ := hargs
  obtain ⟨b, rfl⟩ := Int.eq_ofNat_of_zero_le hb0
  obtain ⟨M, rfl⟩ := Int.eq_ofNat_of_zero_le (a := maxEntries) (by omega)
  obtain ⟨j, hj, hva⟩ := mem_getklogTargets hp
  -- entry `j` is below the count, which is at most `max_entries`
  have hjM : j < M := by
    have := List.length_take_le count.toNat page'
    have := min_le_left (M : ℤ) maxFit
    omega
  rw [hva, target_toNat (by omega) (by omega) hjM]
  rw [klogEntrySize_eq] at hrange ⊢
  refine ⟨hb0, by omega, by omega, hrange⟩

include hsnap in
/-- **The end of a call**, after a snapshot whose count is in range. -/
theorem getklogFinish_safe :
    GetklogSafe s (some page) bufAddr maxEntries sz
      (getklogFinish copyout (UInt32.ofInt bufAddr) (count, page')) := by
  obtain ⟨hsucc, hall⟩ :=
    getklogCopy_spec copyout (UInt32.ofInt bufAddr) 0 (page'.take count.toNat)
  have hin : ∀ p ∈ (getklogCopy copyout (UInt32.ofInt bufAddr) 0 (page'.take count.toNat)).2,
      0 ≤ bufAddr ∧ bufAddr ≤ p.1.toNat ∧
        p.1.toNat + klogEntrySize ≤ bufAddr + maxEntries * klogEntrySize ∧
        bufAddr + maxEntries * klogEntrySize ≤ sz.toNat :=
    fun p hp ↦ getklogTargets_in_range hb hargs hcount (hsucc.subset hp)
  unfold getklogFinish
  cases hc : getklogCopy copyout (UInt32.ofInt bufAddr) 0 (page'.take count.toNat) with
  | mk ok copies =>
    rw [hc] at hall hin
    cases ok with
    | true =>
      -- every copy succeeded: the count is returned
      exact ⟨.inr hcount, hin, fun _ ↦ ⟨page, page', rfl, hsnap, hall rfl⟩, rfl⟩
    | false =>
      exact ⟨.inl rfl, hin, fun h ↦ absurd rfl h, rfl⟩

end Finish

/-- **`copyout` is consulted only inside the user's range.** For a `buf_addr` that `argint` can
return, what `sys_getklog` does depends on `copyout` only at the addresses `va` with
`buf_addr ≤ va` and `va + 88 ≤ buf_addr + max_entries * 88`, whatever the store holds. -/
theorem sysGetklog_congr {bufAddr maxEntries : ℤ} (hb : bufAddr < 2 ^ 31) (sz : UInt32)
    {kalloc : Option (List KlogEntry)} (hpage : ∀ p, kalloc = some p → p.length = 46)
    (s : KlogState) {copyout copyout' : UInt32 → KlogEntry → Bool}
    (h : ∀ va e, bufAddr ≤ va.toNat → va.toNat + klogEntrySize ≤ bufAddr + maxEntries * klogEntrySize →
      copyout' va e = copyout va e) :
    sysGetklog (some bufAddr) (some maxEntries) sz kalloc copyout' s =
      sysGetklog (some bufAddr) (some maxEntries) sz kalloc copyout s := by
  by_cases hargs : GetklogArgsOk bufAddr maxEntries sz
  swap
  · rw [sysGetklog_of_not_argsOk hb sz kalloc copyout' s hargs,
      sysGetklog_of_not_argsOk hb sz kalloc copyout s hargs]
  rw [sysGetklog_of_argsOk hb sz kalloc copyout' s hargs,
    sysGetklog_of_argsOk hb sz kalloc copyout s hargs]
  cases kalloc with
  | none => rfl
  | some page =>
    rw [Option.elim_some, Option.elim_some]
    cases hsnap : klogSnapshot s page (min maxEntries maxFit) with
    | none => rfl
    | some r =>
      obtain ⟨count, page'⟩ := r
      have hlen := hpage page rfl
      obtain ⟨M, -, hM46, hm⟩ := hargs.clamp
      have hcount := klogSnapshot_count_le (show M ≤ page.length by omega) (by omega)
        (hm ▸ hsnap)
      rw [← hm] at hcount
      -- the copy loop consults `copyout` at its planned copies, which lie in the range
      have hcopy : getklogCopy copyout' (UInt32.ofInt bufAddr) 0 (page'.take count.toNat) =
          getklogCopy copyout (UInt32.ofInt bufAddr) 0 (page'.take count.toNat) :=
        getklogCopy_congr (UInt32.ofInt bufAddr) 0 (page'.take count.toNat) fun p hp ↦ by
          obtain ⟨-, hlo, hhi, -⟩ := getklogTargets_in_range hb hargs hcount hp
          exact h p.1 p.2 hlo hhi
      rw [Option.map_some, Option.map_some, getklogFinish, getklogFinish, hcopy]

/-! ## A reachable store -/

section Reachable

variable {boot : LogCall} {ops : List KlogOp} (hcalls : 1 + ops.countP KlogOp.isLog < 2 ^ 32)
  {bufAddr maxEntries : ℤ} (hb : bufAddr < 2 ^ 31) (sz : UInt32) {kalloc : Option (List KlogEntry)}
  (hpage : ∀ p, kalloc = some p → p.length = 46) (copyout : UInt32 → KlogEntry → Bool)
include hcalls hb hpage

/-- **`getklog` on a store that retains something** returns `-1` or a count in range, copies
only into the user's range, copies the snapshot in order on success, and frees what it
allocated. -/
theorem sysGetklog_safe_of_total_pos
    (hT : 0 < (countPass (klogRun (klogInit boot) ops).cpuLogs).1) :
    ∃ r, sysGetklog (some bufAddr) (some maxEntries) sz kalloc copyout (klogRun (klogInit boot) ops) =
      some r ∧ GetklogSafe (klogRun (klogInit boot) ops) kalloc bufAddr maxEntries sz r := by
  by_cases hargs : GetklogArgsOk bufAddr maxEntries sz
  swap
  · exact ⟨_, sysGetklog_of_not_argsOk hb sz kalloc copyout _ hargs, .fail⟩
  rw [sysGetklog_of_argsOk hb sz kalloc copyout _ hargs]
  cases kalloc with
  | none => exact ⟨_, rfl, .fail⟩
  | some page =>
    have hlen := hpage page rfl
    obtain ⟨M, hM1, hM46, hm⟩ := hargs.clamp
    -- the snapshot returns, with a count of at most the clamped `max_entries`
    obtain ⟨count, page', hsnap, -⟩ := klogSnapshot_spec_of_total_pos hcalls hM1
      (show M ≤ page.length by omega) (by omega) hT
    have hcount := klogSnapshot_count_le (by omega) (by omega) hsnap
    rw [← hm] at hsnap hcount
    exact ⟨_, by rw [Option.elim_some, hsnap, Option.map_some],
      getklogFinish_safe hb hargs copyout hsnap hcount⟩

/-- **`getklog` on a store that retains nothing faults**: past its checks, with a page, the
snapshot runs off the page. -/
theorem sysGetklog_eq_none_of_total_eq_zero
    (hT : (countPass (klogRun (klogInit boot) ops).cpuLogs).1 = 0)
    (hargs : GetklogArgsOk bufAddr maxEntries sz) (hk : kalloc.isSome) :
    sysGetklog (some bufAddr) (some maxEntries) sz kalloc copyout (klogRun (klogInit boot) ops) =
      none := by
  obtain ⟨page, rfl⟩ := Option.isSome_iff_exists.mp hk
  have hlen := hpage page rfl
  rw [sysGetklog_of_argsOk hb sz _ copyout _ hargs, Option.elim_some]
  obtain ⟨M, -, hM46, hm⟩ := hargs.clamp
  rw [hm, klogSnapshot_eq_none_of_total_eq_zero hcalls (show M ≤ page.length by omega)
    (by omega) hT]
  rfl

end Reachable

/-- **`getklog` in every reachable store.** For arguments that `argint` can return, the result
depends on `copyout` only inside `[buf_addr, buf_addr + max_entries * 88)`. When the store
retains something, the call returns `-1` or a count of at most `min(max_entries, 46)`, copies
only into that range, which lies in `[0, sz)`, puts the snapshot's `i`-th entry at
`buf_addr + i * 88` on success, and frees what it allocated. When the store retains nothing, a
call that passes its checks and gets a page faults in the snapshot. -/
theorem getklog_checked_copies (boot : LogCall) (ops : List KlogOp)
    (hcalls : 1 + ops.countP KlogOp.isLog < 2 ^ 32) {bufAddr maxEntries : ℤ} (hb : bufAddr < 2 ^ 31)
    (sz : UInt32) {kalloc : Option (List KlogEntry)} (hpage : ∀ p, kalloc = some p → p.length = 46)
    (copyout : UInt32 → KlogEntry → Bool) :
    (∀ copyout' : UInt32 → KlogEntry → Bool, (∀ va e, bufAddr ≤ va.toNat →
        va.toNat + klogEntrySize ≤ bufAddr + maxEntries * klogEntrySize → copyout' va e = copyout va e) →
      sysGetklog (some bufAddr) (some maxEntries) sz kalloc copyout' (klogRun (klogInit boot) ops) =
        sysGetklog (some bufAddr) (some maxEntries) sz kalloc copyout (klogRun (klogInit boot) ops)) ∧
    (0 < (countPass (klogRun (klogInit boot) ops).cpuLogs).1 →
      ∃ r, sysGetklog (some bufAddr) (some maxEntries) sz kalloc copyout
          (klogRun (klogInit boot) ops) = some r ∧
        GetklogSafe (klogRun (klogInit boot) ops) kalloc bufAddr maxEntries sz r) ∧
    ((countPass (klogRun (klogInit boot) ops).cpuLogs).1 = 0 → GetklogArgsOk bufAddr maxEntries sz →
      kalloc.isSome →
      sysGetklog (some bufAddr) (some maxEntries) sz kalloc copyout (klogRun (klogInit boot) ops) =
        none) :=
  ⟨fun _ h ↦ sysGetklog_congr hb sz hpage _ h,
    sysGetklog_safe_of_total_pos hcalls hb sz hpage copyout,
    sysGetklog_eq_none_of_total_eq_zero hcalls hb sz hpage copyout⟩

/-- A page of `46` entries, as `kalloc` hands it out in the concrete runs below. -/
theorem length_eq_of_some_replicate (n : ℕ) (e : KlogEntry) :
    ∀ p, some (List.replicate n e) = some p → p.length = n := by
  rintro p ⟨⟩
  exact List.length_replicate

theorem getklog_checked_copies_boot :
    1 + ([] : List KlogOp).countP KlogOp.isLog < 2 ^ 32 ∧ (0 : ℤ) < 2 ^ 31 ∧
    (∀ p, some (List.replicate 46 KlogEntry.zero) = some p → p.length = 46) ∧
    (∀ copyout' : UInt32 → KlogEntry → Bool, (∀ va e, (0 : ℤ) ≤ va.toNat →
        va.toNat + klogEntrySize ≤ (0 : ℤ) + 10 * klogEntrySize → copyout' va e = true) →
      sysGetklog (some 0) (some 10) 4096 (some (List.replicate 46 KlogEntry.zero)) copyout'
          (klogRun (klogInit (fixedCall 0)) []) =
        sysGetklog (some 0) (some 10) 4096 (some (List.replicate 46 KlogEntry.zero))
          (fun _ _ ↦ true) (klogRun (klogInit (fixedCall 0)) [])) ∧
    (0 < (countPass (klogRun (klogInit (fixedCall 0)) []).cpuLogs).1 →
      ∃ r, sysGetklog (some 0) (some 10) 4096 (some (List.replicate 46 KlogEntry.zero))
          (fun _ _ ↦ true) (klogRun (klogInit (fixedCall 0)) []) = some r ∧
        GetklogSafe (klogRun (klogInit (fixedCall 0)) []) (some (List.replicate 46 KlogEntry.zero))
          0 10 4096 r) ∧
    ((countPass (klogRun (klogInit (fixedCall 0)) []).cpuLogs).1 = 0 → GetklogArgsOk 0 10 4096 →
      (some (List.replicate 46 KlogEntry.zero)).isSome →
      sysGetklog (some 0) (some 10) 4096 (some (List.replicate 46 KlogEntry.zero))
          (fun _ _ ↦ true) (klogRun (klogInit (fixedCall 0)) []) = none) :=
  ⟨by decide, by decide, length_eq_of_some_replicate 46 _,
    getklog_checked_copies (fixedCall 0) [] (by decide) (by decide) 4096
      (length_eq_of_some_replicate 46 _) (fun _ _ ↦ true)⟩

/-- After `klog_init` and a `klog_clear`, `getklog(0, 10)` in a process of size `4096` that gets
its page faults in the snapshot: the rings retain nothing. -/
theorem getklog_faults_after_clear :
    sysGetklog (some 0) (some 10) 4096 (some (List.replicate 46 KlogEntry.zero)) (fun _ _ ↦ true)
      (klogRun (klogInit (fixedCall 0)) klogClearOps) = none :=
  sysGetklog_eq_none_of_total_eq_zero (by decide) (by decide) 4096
    (length_eq_of_some_replicate 46 _) (fun _ _ ↦ true) (by decide)
    ⟨by decide, by decide, le_rfl, by decide⟩ rfl

end Klog

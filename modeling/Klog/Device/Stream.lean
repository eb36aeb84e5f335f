import Klog.Model.Device
import Klog.Snapshot.Concurrent

/-!
# Reading `/dev/klog` again and again

`klogdev_read(ip, dst, n)` takes a snapshot of up to `64` entries and copies whole entries while
they fit in `n` bytes. Nothing in it depends on what was read before: the device state
`klogdev.last_seq`, declared as the "Last sequence number read", is set to `0` by `klogdev_init`
and read by nothing, and `readi` passes a device read `dst` and `n` but not the file offset.

## The snapshot does not depend on the stack

`entries` is an uninitialized stack array. What the snapshot leaves in `entries[0..count)` is a
function of the store alone: the copying pass writes the entries it keeps there, and the sort
puts them in the one order that distinct `seq`s allow (`BubbleSort.eq_of_perm_of_sorted`).

## Consequence

On a store that receives no new entries and retains at least one, every read with room for an
entry returns the same nonempty prefix of one list of entries (`klogdev_read_repeats`): the same
entries come back from every read, and no read returns `0`, so a reader such as `cat` never sees
the end of the file.
-/

namespace Klog

/-! ## The copy loop -/

/-- `copied + sizeof(struct klog_entry) <= n`, compared as `uint`, is the plain comparison while
`n < 2^31`. -/
theorem fits_iff {N k : ℕ} (hN : N < 2 ^ 31) (hk : klogEntrySize * k ≤ N) :
    UInt32.ofInt ((klogEntrySize * k : ℕ) : ℤ) + UInt32.ofNat klogEntrySize ≤ UInt32.ofInt N ↔
      klogEntrySize * (k + 1) ≤ N := by
  rw [klogEntrySize_eq] at hk ⊢
  have hcopied : (UInt32.ofInt ((88 * k : ℕ) : ℤ) + UInt32.ofNat 88).toNat = 88 * k + 88 := by
    rw [UInt32.toNat_add, toNat_ofInt_natCast (by omega), UInt32.toNat_ofNat',
      Nat.mod_eq_of_lt (show 88 < 2 ^ 32 by decide), Nat.mod_eq_of_lt (by omega)]
  rw [UInt32.le_iff_toNat_le, hcopied, toNat_ofInt_natCast (by omega)]
  omega

section Copy

variable {copyout : UInt32 → KlogEntry → Bool} (hok : ∀ va e, copyout va e = true)
  (dst : UInt32) {N : ℕ} (hN : N < 2 ^ 31)
include hok hN

/-- **The copy loop of `klogdev_read`**, when every `copyout` succeeds. From `copied = 88 * k`,
it copies the next entries to `dst + 88 * i` while a whole entry fits in `n`, and returns the
bytes copied. -/
theorem klogdevCopy_of_ok :
    ∀ (es : List KlogEntry) (k : ℕ) (out : List (UInt32 × KlogEntry)), klogEntrySize * k ≤ N →
      klogdevCopy copyout dst N es (klogEntrySize * k : ℕ) out =
        (((klogEntrySize * (k + min es.length (N / klogEntrySize - k)) : ℕ) : ℤ),
          out ++ ((List.range' k (min es.length (N / klogEntrySize - k))).map
            fun i ↦ dst + UInt32.ofNat (klogEntrySize * i)).zip es)
  | [], k, out, _ => by simp [klogdevCopy]
  | e :: es, k, out, hk => by
    by_cases hfit : klogEntrySize * (k + 1) ≤ N
    · -- the entry fits: it goes to `dst + copied`, and the loop goes on from `copied + 88`
      have hva : UInt32.ofInt ((klogEntrySize * k : ℕ) : ℤ) = UInt32.ofNat (klogEntrySize * k) :=
        UInt32.toNat_inj.mp (by
          rw [toNat_ofInt_natCast (by omega), UInt32.toNat_ofNat', Nat.mod_eq_of_lt (by omega)])
      have hnext : ((klogEntrySize * k : ℕ) : ℤ) + (klogEntrySize : ℤ) =
          ((klogEntrySize * (k + 1) : ℕ) : ℤ) := by
        rw [klogEntrySize_eq]
        push_cast
        omega
      have hroom : min (es.length + 1) (N / klogEntrySize - k) =
          min es.length (N / klogEntrySize - (k + 1)) + 1 := by
        have : k + 1 ≤ N / klogEntrySize := (Nat.le_div_iff_mul_le (by decide)).mpr (by
          rw [Nat.mul_comm]
          exact hfit)
        omega
      rw [klogdevCopy, if_pos ((fits_iff hN hk).mpr hfit)]
      dsimp only
      rw [hok, if_pos rfl, hnext, klogdevCopy_of_ok es (k + 1) _ hfit, List.length_cons, hroom, List.range'_succ,
        List.map_cons, List.zip_cons_cons, hva, List.append_assoc, List.singleton_append]
      congr 2
      rw [klogEntrySize_eq]
      omega
    · -- the entry does not fit: the loop stops with what it has copied
      have hstop : N / klogEntrySize - k = 0 := by
        have : N / klogEntrySize < k + 1 := (Nat.div_lt_iff_lt_mul (by decide)).mpr (by
          rw [Nat.mul_comm]
          omega)
        omega
      rw [klogdevCopy, if_neg (fun h ↦ hfit ((fits_iff hN hk).mp h)), hstop]
      simp

/-- A whole read copies the first `n / 88` entries, to `dst, dst + 88, …`, and returns their
size. -/
theorem klogdevCopy_zero_of_ok (es : List KlogEntry) :
    ∃ out, klogdevCopy copyout dst N es 0 [] =
        (((klogEntrySize * min es.length (N / klogEntrySize) : ℕ) : ℤ), out) ∧
      out.map Prod.snd = es.take (N / klogEntrySize) := by
  have h := klogdevCopy_of_ok hok dst hN es 0 [] (by simp)
  simp only [Nat.mul_zero, Nat.cast_zero, Nat.zero_add, Nat.sub_zero, List.nil_append] at h
  refine ⟨_, h, ?_⟩
  -- the `j` addresses pair with the first `j` entries
  set j := min es.length (N / klogEntrySize)
  have hA : ((List.range' 0 j).map fun i ↦ dst + UInt32.ofNat (klogEntrySize * i)).length = j := by
    simp
  have hj : j ≤ es.length := Nat.min_le_left _ _
  rw [List.zip_eq_zip_take_min, hA, Nat.min_eq_left hj, List.map_snd_zip (by simp)]
  conv_rhs => rw [List.take_eq_take_min]
  rw [Nat.min_comm]

end Copy

/-! ## The snapshot a read takes -/

theorem klogdevRead_eq (copyout : UInt32 → KlogEntry → Bool) (s : KlogState)
    (entries : List KlogEntry) (dst : UInt32) (n : ℤ) :
    klogdevRead copyout s entries dst n = (klogSnapshot s entries 64).map
      fun r ↦ klogdevCopy copyout dst n (r.2.take r.1.toNat) 0 [] := by
  unfold klogdevRead
  cases klogSnapshot s entries 64 with
  | none => rfl
  | some r =>
    obtain ⟨count, buf⟩ := r
    rfl

/-- **The snapshot does not depend on the buffer it is given.** In a reachable store that
retains something, one nonempty list of entries is what every snapshot of up to `m` entries
counts and leaves at the front of its buffer. -/
theorem klogSnapshot_take_eq_of_total_pos {boot : LogCall} {ops : List KlogOp}
    (hcalls : 1 + ops.countP KlogOp.isLog < 2 ^ 32)
    (hT : 0 < (countPass (klogRun (klogInit boot) ops).cpuLogs).1) {m : ℕ} (hm1 : 1 ≤ m)
    (hm32 : m < 2 ^ 32) :
    ∃ es : List KlogEntry, es ≠ [] ∧ ∀ buf : List KlogEntry, m ≤ buf.length →
      buf.length < 2 ^ 32 → ∃ buf', klogSnapshot (klogRun (klogInit boot) ops) buf m =
        some ((es.length : ℤ), buf') ∧ buf'.take es.length = es := by
  set s := klogRun (klogInit boot) ops
  set sel := (selected s.cpuLogs (snapshotThreshold s.cpuLogs m)).take m
  -- a snapshot into a zeroed buffer shows that the copying pass keeps something
  have hlen0 : (List.replicate m KlogEntry.zero).length = m := List.length_replicate
  obtain ⟨_, _, hsnap0, -⟩ :=
    klogSnapshot_spec_of_total_pos hcalls hm1 hlen0.ge (by omega) hT
  have hspec0 := klogSnapshotOf_spec s.cpuLogs s.cpuLogs hlen0.ge (by omega)
  have hsel : sel ≠ [] := by
    intro h
    have hnone := hspec0.1 h
    rw [klogSnapshot] at hsnap0
    rw [hsnap0] at hnone
    exact Option.some_ne_none _ hnone
  obtain ⟨b₀, -, hperm₀, hsorted₀, -⟩ := hspec0.2 hsel
  -- the kept entries have distinct `seq`s, so they have one sorted order
  have hnd : (sel.map fun e ↦ e.seq.toNat).Nodup :=
    List.Nodup.sublist ((List.take_sublist _ _).map _) (nodup_selected_seq_reachable hcalls _)
  refine ⟨b₀.take sel.length, ?_, fun buf hm h32 ↦ ?_⟩
  · rw [← List.length_pos_iff, hperm₀.length_eq]
    exact List.length_pos_iff.mpr hsel
  · obtain ⟨b, hsnap, hperm, hsorted, -⟩ := (klogSnapshotOf_spec s.cpuLogs s.cpuLogs hm h32).2 hsel
    rw [hperm₀.length_eq]
    exact ⟨b, hsnap, BubbleSort.eq_of_perm_of_sorted hnd hperm hperm₀ hsorted hsorted₀⟩

/-! ## Reads of an unchanged store -/

/-- **`/dev/klog` has no position.** In a reachable store that retains something and receives no
new entries, there is one nonempty list of entries of which every read with room for an entry
returns the first `n / 88`, whatever the stack held, with `88` bytes for each: every read returns
its first entry again, and none returns `0`. -/
theorem klogdev_read_repeats (boot : LogCall) (ops : List KlogOp)
    (hcalls : 1 + ops.countP KlogOp.isLog < 2 ^ 32)
    (hT : 0 < (countPass (klogRun (klogInit boot) ops).cpuLogs).1) :
    ∃ es : List KlogEntry, es ≠ [] ∧
      ∀ (copyout : UInt32 → KlogEntry → Bool) (entries : List KlogEntry) (dst : UInt32) (n : ℕ),
        (∀ va e, copyout va e = true) → entries.length = 64 → klogEntrySize ≤ n → n < 2 ^ 31 →
        ∃ out, klogdevRead copyout (klogRun (klogInit boot) ops) entries dst n =
            some (((klogEntrySize * min es.length (n / klogEntrySize) : ℕ) : ℤ), out) ∧
          out.map Prod.snd = es.take (n / klogEntrySize) := by
  obtain ⟨es, hne, hes⟩ := klogSnapshot_take_eq_of_total_pos hcalls hT (m := 64) (by decide)
    (by decide)
  refine ⟨es, hne, fun copyout entries dst n hok hlen _ hn ↦ ?_⟩
  obtain ⟨buf', hsnap, htake⟩ := hes entries (by omega) (by omega)
  rw [Nat.cast_ofNat] at hsnap
  obtain ⟨out, hcopy, hout⟩ := klogdevCopy_zero_of_ok hok dst hn es
  refine ⟨out, ?_, hout⟩
  rw [klogdevRead_eq, hsnap, Option.map_some, Int.toNat_natCast, htake, hcopy]

theorem klogdev_read_repeats_boot :
    1 + ([] : List KlogOp).countP KlogOp.isLog < 2 ^ 32 ∧
    0 < (countPass (klogRun (klogInit (fixedCall 0)) []).cpuLogs).1 ∧
    ∃ es : List KlogEntry, es ≠ [] ∧
      ∀ (copyout : UInt32 → KlogEntry → Bool) (entries : List KlogEntry) (dst : UInt32) (n : ℕ),
        (∀ va e, copyout va e = true) → entries.length = 64 → klogEntrySize ≤ n → n < 2 ^ 31 →
        ∃ out, klogdevRead copyout (klogRun (klogInit (fixedCall 0)) []) entries dst n =
            some (((klogEntrySize * min es.length (n / klogEntrySize) : ℕ) : ℤ), out) ∧
          out.map Prod.snd = es.take (n / klogEntrySize) := by
  have hT : 0 < (countPass (klogRun (klogInit (fixedCall 0)) []).cpuLogs).1 := by decide
  exact ⟨by decide, hT, klogdev_read_repeats (fixedCall 0) [] (by decide) hT⟩

end Klog

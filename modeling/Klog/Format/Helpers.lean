import Klog.Format.Render

/-!
# What `snprintf_int` and `snprintf_hex` write

Both helpers print a text into the `size` bytes at `buf`: its first `size - 1` characters, a NUL
after them, and the count of characters as the result (`printPrefix`). `snprintf_hex` does so
for `0x` and the hexadecimal digits whenever `size` leaves room for `0x` and the terminator
(`snprintfHex_eq`). `snprintf_int` does so for what `decimalCode` prints (`snprintfInt_eq`), the
signed decimal of every `int` but `INT_MIN`: `val = -val` leaves `INT_MIN` negative, the digit
loop `while(val > 0 && …)` never runs, and only the sign is printed.

Both helpers are read as the same three steps: a prefix written at once (`-`, or `0x`), the pop
loop `emitDigits`, which writes the digits that fit and nothing else (`emitDigits_eq`), and the
terminator where the pop loop stopped.
-/

namespace Klog

/-! ## Writing a text at consecutive offsets -/

/-- `buf[base + k] = t[k]` for each `k` in turn. -/
def LineBuf.writeFrom (b : LineBuf) (base : ℕ) : List Char → LineBuf
  | [] => b
  | c :: t => (b.write base c).writeFrom (base + 1) t

/-- What a helper that prints `t` into the `size` bytes at `buf + base` leaves: the first
`size - 1` characters of `t` and a NUL after them, and the count of those characters. -/
def printPrefix (b : LineBuf) (base : ℕ) (size : ℤ) (t : List Char) : LineBuf × ℕ :=
  (b.writeFrom base (t.take (size - 1).toNat ++ ['\x00']), (t.take (size - 1).toNat).length)

namespace LineBuf

theorem writeFrom_append (s t : List Char) :
    ∀ (b : LineBuf) (base : ℕ), b.writeFrom base (s ++ t) =
      (b.writeFrom base s).writeFrom (base + s.length) t := by
  induction s with
  | nil => intro b base; rfl
  | cons c s ih =>
    intro b base
    rw [List.cons_append, writeFrom, writeFrom, ih, List.length_cons, Nat.add_assoc,
      Nat.add_comm 1]

end LineBuf

/-! ## The pop loop -/

/-- **The pop loop writes the digits that fit**: from `j`, the first `limit - j` of them, at the
offsets after `base + j`, and stops after the last. -/
theorem emitDigits_eq (base : ℕ) (limit : ℤ) :
    ∀ (cs : List Char) (b : LineBuf) (j : ℕ), emitDigits base limit cs b j =
      (b.writeFrom (base + j) (cs.take (limit - j).toNat), j + (cs.take (limit - j).toNat).length)
  | [], b, j => by rw [List.take_nil]; rfl
  | c :: cs, b, j => by
    rw [emitDigits]
    split_ifs with hlt
    · -- one more place is left: the digit goes there and the loop goes on from `j + 1`
      have hroom : (limit - j).toNat = (limit - (j + 1 : ℕ)).toNat + 1 := by omega
      rw [emitDigits_eq, hroom, List.take_succ_cons, LineBuf.writeFrom, List.length_cons]
      congr 1
      omega
    · rw [show (limit - j).toNat = 0 by omega, List.take_zero]
      rfl

/-- After a prefix written at `base`, the pop loop and the terminator print the prefix and the
digits as far as `size` allows. -/
theorem emitDigits_printPrefix (b : LineBuf) (base : ℕ) {size : ℤ} (pre cs : List Char)
    (hpre : (pre.length : ℤ) ≤ size - 1) :
    ((emitDigits base (size - 1) cs (b.writeFrom base pre) pre.length).1.write
        (base + (emitDigits base (size - 1) cs (b.writeFrom base pre) pre.length).2) '\x00',
      (emitDigits base (size - 1) cs (b.writeFrom base pre) pre.length).2) =
      printPrefix b base size (pre ++ cs) := by
  have hroom : (size - 1).toNat = pre.length + (size - 1 - (pre.length : ℕ)).toNat := by omega
  rw [emitDigits_eq, printPrefix, hroom, List.take_length_add_append, List.append_assoc,
    LineBuf.writeFrom_append, LineBuf.writeFrom_append, List.length_append, Nat.add_assoc]
  rfl

/-! ## The helpers -/

/-- What `snprintf_int` prints is its sign and the digits it pops: for `INT_MIN` the sign alone. -/
theorem decimalCode_eq_popped {val : ℤ} (hlo : -2 ^ 31 ≤ val) (hhi : val < 2 ^ 31) :
    decimalCode val = (if val < 0 then ['-'] else []) ++
      (if (if val < 0 then (-val).bmod (2 ^ 32) else val) = 0 then ['0']
        else intDigits (if val < 0 then (-val).bmod (2 ^ 32) else val) 16).reverse := by
  by_cases hmin : val = -2 ^ 31
  · subst hmin
    rw [snprintfInt_digits_intMin, decimalCode, if_pos rfl, if_pos (by norm_num)]
    rfl
  · rw [snprintfInt_digits (lt_of_le_of_ne hlo (Ne.symm hmin)) hhi, decimalCode_of_ne hmin,
      decimalText]

/-- **`snprintf_int` prints `decimalCode` as far as `size` allows.** -/
theorem snprintfInt_eq (b : LineBuf) (base : ℕ) {size val : ℤ} (hsize : 0 < size)
    (hlo : -2 ^ 31 ≤ val) (hhi : val < 2 ^ 31) :
    snprintfInt b base size val = printPrefix b base size (decimalCode val) := by
  rw [snprintfInt, if_neg (by omega), decimalCode_eq_popped hlo hhi]
  dsimp only
  by_cases hsign : val < 0 ∧ 0 < size - 1
  · -- the sign takes the first of the `size - 1` places
    rw [if_pos hsign, if_pos hsign.1, if_pos hsign.1]
    refine emitDigits_printPrefix b base ['-'] _ ?_
    rw [List.length_singleton, Nat.cast_one]
    omega
  · rw [if_neg hsign]
    by_cases hneg : val < 0
    · -- no place for the sign: `size = 1`, and nothing but the terminator is written
      have hroom : (size - 1).toNat = 0 := by omega
      rw [if_pos hneg, if_pos hneg, printPrefix, hroom, emitDigits_eq, Nat.cast_zero, sub_zero, hroom]
      rfl
    · rw [if_neg hneg, if_neg hneg]
      refine emitDigits_printPrefix b base [] _ ?_
      rw [List.length_nil, Nat.cast_zero]
      omega

/-- **`snprintf_hex` prints `0x` and the hexadecimal as far as `size` allows**, when `size` has
room for `0x` and the terminator. -/
theorem snprintfHex_eq (b : LineBuf) (base : ℕ) {size : ℤ} (hsize : 2 < size) (val : UInt32) :
    snprintfHex b base size val = printPrefix b base size (hexText val) := by
  rw [snprintfHex, if_neg (by omega)]
  dsimp only
  rw [snprintfHex_digits]
  refine emitDigits_printPrefix b base ['0', 'x'] _ ?_
  rw [List.length_cons, List.length_singleton]
  omega

/-- **The helpers print a prefix of their text**, except `snprintf_int` on `INT_MIN`. For every
`size ≥ 1`, `snprintf_int` writes the first `size - 1` characters of the signed decimal of every
other `int`, a NUL after them, and returns their count; for every `size ≥ 3`, `snprintf_hex` does
the same for `0x` and the hexadecimal digits. On `INT_MIN` `snprintf_int` prints the sign alone,
which is short of the decimal whenever `size ≥ 3`. -/
theorem snprintf_prints_prefix :
    (∀ (b : LineBuf) (base : ℕ) (size val : ℤ), 1 ≤ size → -2 ^ 31 < val → val < 2 ^ 31 →
      snprintfInt b base size val = printPrefix b base size (decimalText val)) ∧
    (∀ (b : LineBuf) (base : ℕ) (size : ℤ) (val : UInt32), 3 ≤ size →
      snprintfHex b base size val = printPrefix b base size (hexText val)) ∧
    (∀ (b : LineBuf) (base : ℕ) (size : ℤ), 1 ≤ size →
      snprintfInt b base size (-2 ^ 31) = printPrefix b base size ['-']) ∧
    (∀ (b : LineBuf) (base : ℕ) (size : ℤ), 3 ≤ size →
      snprintfInt b base size (-2 ^ 31) ≠ printPrefix b base size (decimalText (-2 ^ 31))) := by
  have hmin : decimalCode (-2 ^ 31) = ['-'] := if_pos rfl
  refine ⟨fun b base size val hsize hlo hhi ↦ ?_, fun b base size val hsize ↦ ?_,
    fun b base size hsize ↦ ?_, fun b base size hsize heq ↦ ?_⟩
  · rw [snprintfInt_eq b base (by omega) hlo.le hhi, decimalCode_of_ne hlo.ne']
  · exact snprintfHex_eq b base (by omega) val
  · rw [snprintfInt_eq b base (by omega) le_rfl (by norm_num), hmin]
  · -- the counts differ: one character against the first `size - 1 ≥ 2` of eleven
    have hcount := congrArg Prod.snd heq
    have hlen : (decimalText (-2 ^ 31)).length = 11 := by decide
    rw [snprintfInt_eq b base (by omega) le_rfl (by norm_num), hmin, printPrefix, printPrefix,
      List.length_take, List.length_take, hlen, List.length_singleton] at hcount
    omega

theorem snprintf_prints_prefix_pid :
    snprintfInt ⟨fun _ ↦ '\x00', []⟩ 0 64 42 =
      printPrefix ⟨fun _ ↦ '\x00', []⟩ 0 64 (decimalText 42) :=
  snprintf_prints_prefix.1 _ _ _ _ (by norm_num) (by norm_num) (by norm_num)

end Klog

import Klog.Model.Entry
import Klog.Lib.RingWindow

/-!
# Formatting a log message

The first half of `klog_printf_internal`: the loop that renders a format string and its
arguments into the local `char buf[64]`, its helpers `snprintf_int` and `snprintf_hex`, and the
loop that copies the result into an entry's `msg`.

## Representation

`buf` is a window on the stack. `LineBuf.bytes` gives the byte at every offset from the start
of `buf`, offsets `64` and beyond lying past its end, and `LineBuf.written` records the offset of
every write the code makes. What `buf` holds before the loop is whatever the stack held; it is a
parameter.

The variadic arguments are the words at `ap`, `ap + 1`, …: a function from the argument index
to a `uint`, read whether or not the caller passed that many. `%s` reads the NUL-terminated
string at a word's address through `strAt`, a view of memory. An `int` is an `ℤ`; where the
source negates one, the result is taken modulo `2^32` in two's complement, as the machine's
`neg` instruction gives it. For `INT_MIN` that negation overflows, which C leaves undefined, and
the optimised build can differ there (`snprintfInt`).

Every loop of the source is a structural recursion: over the rest of the format string, over
the rest of a `%s` string, over the digits still to emit, and over the bytes `msg` still has
room for.
-/

namespace Klog

/-- The stack bytes from the start of `buf` onward, and the offsets written so far. -/
structure LineBuf where
  /-- The byte at each offset from the start of `buf`. -/
  bytes : ℕ → Char
  /-- Every offset written, most recent first. -/
  written : List ℕ

/-- `buf[k] = c`. -/
def LineBuf.write (b : LineBuf) (k : ℕ) (c : Char) : LineBuf :=
  ⟨Function.update b.bytes k c, k :: b.written⟩

/-- The `int` an argument word is read as. -/
def asInt (w : UInt32) : ℤ := (w.toNat : ℤ).bmod (2 ^ 32)

/-! ## `snprintf_int` and `snprintf_hex` -/

/-- The digit loop of `snprintf_int`,
`while(val > 0 && i < sizeof(tmp)) { tmp[i++] = '0' + (val % 10); val /= 10; }`,
giving `tmp[0..i)`; the second argument is the room left in `tmp`. -/
def intDigits : ℤ → ℕ → List Char
  | _, 0 => []
  | v, room + 1 =>
    if 0 < v then Char.ofNat ('0'.toNat + (v % 10).toNat) :: intDigits (v / 10) room else []

/-- `static char digits[] = "0123456789abcdef"`. -/
def hexDigitChars : List Char := "0123456789abcdef".toList

/-- The digit loop of `snprintf_hex`,
`while(val > 0 && i < sizeof(tmp)) { tmp[i++] = digits[val & 0xf]; val >>= 4; }`. -/
def hexDigits : UInt32 → ℕ → List Char
  | _, 0 => []
  | v, room + 1 =>
    if 0 < v then hexDigitChars.getD (v &&& 0xf).toNat '0' :: hexDigits (v >>> 4) room else []

/-- `while(i > 0 && j < size-1) buf[j++] = tmp[--i];`, given the digits in the order they are
popped and the bound `size - 1`. -/
def emitDigits (base : ℕ) (limit : ℤ) : List Char → LineBuf → ℕ → LineBuf × ℕ
  | [], b, j => (b, j)
  | c :: cs, b, j =>
    if (j : ℤ) < limit then emitDigits base limit cs (b.write (base + j) c) (j + 1) else (b, j)

/-- `snprintf_int(buf + base, size, val)`: the buffer after the call and the count returned.

For `val = INT_MIN`, `val = -val` overflows, which C leaves undefined. The model takes the
negation modulo `2^32`, as an unoptimised build or one with `-fwrapv` does: `INT_MIN` stays
negative, no digit is produced, and the call writes `-` alone and returns `1`. The Makefile
builds with `-O2` and without `-fwrapv`, and GCC then treats the negated value as positive: that
build writes `-8` and returns `2`. At that one input the model describes the unoptimised build,
not the one the Makefile makes. -/
def snprintfInt (b : LineBuf) (base : ℕ) (size : ℤ) (val : ℤ) : LineBuf × ℕ :=
  if size ≤ 0 then (b, 0)
  else
    -- `val = -val` wraps: `INT_MIN` stays `INT_MIN`, and then no digit is produced
    let v := if val < 0 then (-val).bmod (2 ^ 32) else val
    let tmp := if v = 0 then ['0'] else intDigits v 16
    let (b, j) := if val < 0 ∧ 0 < size - 1 then (b.write base '-', 1) else (b, 0)
    let (b, j) := emitDigits base (size - 1) tmp.reverse b j
    (b.write (base + j) '\x00', j)

/-- `snprintf_hex(buf + base, size, val)`. -/
def snprintfHex (b : LineBuf) (base : ℕ) (size : ℤ) (val : UInt32) : LineBuf × ℕ :=
  if size ≤ 2 then (b, 0)
  else
    let b := (b.write base '0').write (base + 1) 'x'
    let tmp := if val = 0 then ['0'] else hexDigits val 16
    let (b, j) := emitDigits base (size - 1) tmp.reverse b 2
    (b.write (base + j) '\x00', j)

/-! ## The format loop -/

/-- The string `%s` prints for a null pointer. -/
def nullStr : List Char := "(null)".toList

/-- `for(; *s && i < sizeof(buf)-1; s++) buf[i++] = *s;` -/
def copyStr : List Char → LineBuf → ℕ → LineBuf × ℕ
  | [], b, i => (b, i)
  | c :: cs, b, i => if c ≠ '\x00' ∧ i < 63 then copyStr cs (b.write i c) (i + 1) else (b, i)

/-- `for(; *fmt && i < sizeof(buf)-1; fmt++) { … }`, from format position `fmt`, argument index
`ap` and buffer position `i`. -/
def formatLoop (args : ℕ → UInt32) (strAt : UInt32 → List Char) :
    List Char → ℕ → ℕ → LineBuf → LineBuf × ℕ
  | [], _, i, b => (b, i)
  | c :: fmt, ap, i, b =>
    if c = '\x00' ∨ 63 ≤ i then (b, i)
    else if c ≠ '%' then formatLoop args strAt fmt ap (i + 1) (b.write i c)
    else
      match fmt with
      | [] => (b, i)
      | d :: fmt =>
        -- `fmt++; if(*fmt == 0) break;`
        if d = '\x00' then (b, i)
        else
          match d with
          | 'd' =>
            let (b, j) := snprintfInt b i (64 - i) (asInt (args ap))
            formatLoop args strAt fmt (ap + 1) (i + j) b
          | 'x' =>
            let (b, j) := snprintfHex b i (64 - i) (args ap)
            formatLoop args strAt fmt (ap + 1) (i + j) b
          | 's' =>
            let (b, i) := copyStr (if args ap = 0 then nullStr else strAt (args ap)) b i
            formatLoop args strAt fmt (ap + 1) i b
          | '%' => formatLoop args strAt fmt ap (i + 1) (b.write i '%')
          | _ => formatLoop args strAt fmt ap (i + 2) ((b.write i '%').write (i + 1) d)

/-- One step of the format loop, as the definition takes it. -/
theorem formatLoop_cons (args : ℕ → UInt32) (strAt : UInt32 → List Char) (c : Char)
    (fmt : List Char) (ap i : ℕ) (b : LineBuf) :
    formatLoop args strAt (c :: fmt) ap i b =
      if c = '\x00' ∨ 63 ≤ i then (b, i)
      else if c ≠ '%' then formatLoop args strAt fmt ap (i + 1) (b.write i c)
      else
        match fmt with
        | [] => (b, i)
        | d :: fmt =>
          if d = '\x00' then (b, i)
          else
            match d with
            | 'd' =>
              let (b, j) := snprintfInt b i (64 - i) (asInt (args ap))
              formatLoop args strAt fmt (ap + 1) (i + j) b
            | 'x' =>
              let (b, j) := snprintfHex b i (64 - i) (args ap)
              formatLoop args strAt fmt (ap + 1) (i + j) b
            | 's' =>
              let (b, i) := copyStr (if args ap = 0 then nullStr else strAt (args ap)) b i
              formatLoop args strAt fmt (ap + 1) i b
            | '%' => formatLoop args strAt fmt ap (i + 1) (b.write i '%')
            | _ => formatLoop args strAt fmt ap (i + 2) ((b.write i '%').write (i + 1) d) := by
  exact formatLoop.eq_def args strAt (c :: fmt) ap i b

/-- A character after `%` that is neither the NUL nor one of the conversions the loop knows, so
that the loop takes its last branch. -/
theorem not_mem_conversions_iff {d : Char} :
    d ∉ ['\x00', 'd', 'x', 's', '%'] ↔ d ≠ '\x00' ∧ d ≠ 'd' ∧ d ≠ 'x' ∧ d ≠ 's' ∧ d ≠ '%' := by
  simp only [List.mem_cons, List.not_mem_nil, or_false, not_or]

/-- The format loop followed by `buf[i] = 0`. -/
def formatLine (stack : ℕ → Char) (fmt : List Char) (args : ℕ → UInt32)
    (strAt : UInt32 → List Char) : LineBuf :=
  let (b, i) := formatLoop args strAt fmt 0 0 ⟨stack, []⟩
  b.write i '\x00'

/-! ## The copy into `msg` -/

/-- `msg` has 64 bytes, so every position is reduced modulo `64` into it. -/
instance instNeZeroMsgLen : NeZero (64 : ℕ) := ⟨by decide⟩

/-- `for(i = 0; i < sizeof(entry->msg)-1 && buf[i]; i++) entry->msg[i] = buf[i];` and then
`entry->msg[i] = 0`, from position `i` with `n = 63 - i` iterations left. -/
def copyMsgLoop (bytes : ℕ → Char) : ℕ → ℕ → (Fin 64 → Char) → Fin 64 → Char
  | 0, i, msg => Function.update msg (Fin.ofNat 64 i) '\x00'
  | n + 1, i, msg =>
    if bytes i ≠ '\x00' then
      copyMsgLoop bytes n (i + 1) (Function.update msg (Fin.ofNat 64 i) (bytes i))
    else Function.update msg (Fin.ofNat 64 i) '\x00'

/-- The message bytes of an entry after the copy, from the slot's previous message. -/
def copyMsg (bytes : ℕ → Char) (msg : Fin 64 → Char) : Fin 64 → Char :=
  copyMsgLoop bytes 63 0 msg

/-- What the copy leaves readable in `msg`: the line up to its first NUL, at most 63 bytes. -/
def msgText (bytes : ℕ → Char) : List Char :=
  ((List.range 63).map bytes).takeWhile (· ≠ '\x00')

/-- The C string of `msg` from position `i` on. -/
def cstrFrom (msg : Fin 64 → Char) (i : ℕ) : List Char :=
  ((List.range' i (64 - i)).map fun j ↦ msg (Fin.ofNat 64 j)).takeWhile (· ≠ '\x00')

/-- The copy from position `i` on leaves the positions before `i` alone. -/
theorem copyMsgLoop_of_lt (bytes : ℕ → Char) :
    ∀ n i (msg : Fin 64 → Char), i + n ≤ 63 → ∀ j < i,
      copyMsgLoop bytes n i msg (Fin.ofNat 64 j) = msg (Fin.ofNat 64 j) := by
  intro n
  induction n with
  | zero =>
    intro i msg hi j hj
    rw [copyMsgLoop, Function.update_of_ne (RingWindow.ofNat_ne_of_lt hj (by omega))]
  | succ n ih =>
    intro i msg hi j hj
    have hne : Fin.ofNat 64 j ≠ Fin.ofNat 64 i := RingWindow.ofNat_ne_of_lt hj (by omega)
    rw [copyMsgLoop]
    split_ifs
    · rw [ih (i + 1) _ (by omega) j (by omega), Function.update_of_ne hne]
    · rw [Function.update_of_ne hne]

theorem cstrFrom_copyMsgLoop (bytes : ℕ → Char) :
    ∀ n i (msg : Fin 64 → Char), i + n = 63 →
      cstrFrom (copyMsgLoop bytes n i msg) i =
        ((List.range' i n).map bytes).takeWhile (· ≠ '\x00') := by
  intro n
  induction n with
  | zero =>
    intro i msg hi
    obtain rfl : i = 63 := by omega
    simp [cstrFrom, copyMsgLoop]
  | succ n ih =>
    intro i msg hi
    have hrange : List.range' i (64 - i) = i :: List.range' (i + 1) (64 - (i + 1)) := by
      rw [show 64 - i = (64 - (i + 1)) + 1 by omega, List.range'_succ]
    rw [cstrFrom, hrange, List.range'_succ, copyMsgLoop]
    split_ifs with hb
    · -- the byte at `i` is copied, and the rest of the copy starts at `i + 1`
      have hkeep := copyMsgLoop_of_lt bytes n (i + 1)
        (Function.update msg (Fin.ofNat 64 i) (bytes i)) (by omega) i (Nat.lt_succ_self i)
      rw [List.map_cons, List.map_cons, hkeep, Function.update_self,
        List.takeWhile_cons_of_pos (by simpa using hb),
        List.takeWhile_cons_of_pos (by simpa using hb), ← ih (i + 1) _ (by omega), cstrFrom]
    · rw [List.map_cons, List.map_cons, Function.update_self,
        List.takeWhile_cons_of_neg (by simp), List.takeWhile_cons_of_neg (by simpa using hb)]

/-- **What a copied message says.** Whatever the slot's message was, after the copy its C string
is the formatted line up to its first NUL, at most 63 bytes. -/
theorem cstr_copyMsg (bytes : ℕ → Char) (msg : Fin 64 → Char) :
    cstr (copyMsg bytes msg) = msgText bytes := by
  have h := cstrFrom_copyMsgLoop bytes 63 0 msg rfl
  rw [cstrFrom, Nat.sub_zero, ← List.range_eq_range'] at h
  rw [cstr, copyMsg, h, msgText, List.range_eq_range']

end Klog

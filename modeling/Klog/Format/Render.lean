import Klog.Format.Bounds
import Klog.Model.Printf
import Klog.Lib.BoundedWrite
import Klog.Lib.Digits

/-!
# What a formatted message says

A reference rendering of a format string and its arguments, and the theorem that the message of
every entry `klog_printf_internal` appends is a rendering of its format cut to 63 characters.

`renderWith` renders a format the way the format loop walks it: a literal as itself, `%d`, `%x`
and `%s` as the text of the next argument, `%%` as `%`, any other `%c` as the two characters, and
nothing from a NUL or a trailing lone `%` on. It is parameterized by how a number is printed, and
it tracks the column, since what the code prints for `%x` depends on it. `render` prints the
signed decimal and `0x` with the hexadecimal digits; `renderCode` prints what the helpers
of the source print, which differs in two places:

* `snprintf_int` negates `INT_MIN` to itself and then finds no digit, so it prints `-` alone;
* `snprintf_hex` is given `sizeof(buf) - i = 2` bytes at column `62`, too few for `0x`, and prints
  nothing, where any other column prints `0x…` as far as it fits.

The first is the wrapped negation; the second is the size check of `snprintf_hex`. `renderBounded`
keeps only the second, and the two renderings agree whenever no `%d` of the format reads
`INT_MIN`, since the rendering reads its printer of `%d` only at those arguments
(`renderWith_congr_dec`).

The proof follows the loop with `BoundedWrite.Emits` at the capacity `63`: every branch emits its
piece of `renderCode` from the column it starts at (`formatLoop_emits`), and the copy into
`msg` reads the line up to its terminator (`msgText_formatLine`).
-/

namespace Klog

open BoundedWrite

/-! ## The reference rendering -/

/-- The signed decimal of an `int`. -/
def decimalText (v : ℤ) : List Char :=
  (if v < 0 then ['-'] else []) ++ Nat.toDigits 10 v.natAbs

/-- `0x` and the lowercase hexadecimal digits of a `uint`, without leading zeros. -/
def hexText (w : UInt32) : List Char :=
  '0' :: 'x' :: Nat.toDigits 16 w.toNat

/-- What `%s` prints for an argument word: the string up to its NUL, `(null)` for a null
pointer. -/
def strText (strAt : UInt32 → List Char) (w : UInt32) : List Char :=
  (if w = 0 then nullStr else strAt w).takeWhile (· ≠ '\x00')

/-- The rendering of a format from argument index `ap` at column `pos`, printing a `%d` argument
with `dec` and a `%x` argument at a column with `hex`. -/
def renderWith (dec : ℤ → List Char) (hex : ℕ → UInt32 → List Char) (args : ℕ → UInt32)
    (strAt : UInt32 → List Char) : List Char → ℕ → ℕ → List Char
  | [], _, _ => []
  | c :: fmt, ap, pos =>
    if c = '\x00' then []
    else if c ≠ '%' then c :: renderWith dec hex args strAt fmt ap (pos + 1)
    else
      match fmt with
      | [] => []
      | d :: fmt =>
        if d = '\x00' then []
        else
          match d with
          | 'd' =>
            let t := dec (asInt (args ap))
            t ++ renderWith dec hex args strAt fmt (ap + 1) (pos + t.length)
          | 'x' =>
            let t := hex pos (args ap)
            t ++ renderWith dec hex args strAt fmt (ap + 1) (pos + t.length)
          | 's' =>
            let t := strText strAt (args ap)
            t ++ renderWith dec hex args strAt fmt (ap + 1) (pos + t.length)
          | '%' => '%' :: renderWith dec hex args strAt fmt ap (pos + 1)
          | _ => '%' :: d :: renderWith dec hex args strAt fmt ap (pos + 2)

/-- The reference rendering of a format and its arguments. -/
def render (args : ℕ → UInt32) (strAt : UInt32 → List Char) (fmt : List Char) : List Char :=
  renderWith decimalText (fun _ ↦ hexText) args strAt fmt 0 0

/-- What `snprintf_int` prints, uncut: `INT_MIN` loses its digits. -/
def decimalCode (v : ℤ) : List Char :=
  if v = -2 ^ 31 then ['-'] else decimalText v

/-- What `snprintf_hex` prints at a column, uncut: nothing at column `62`. -/
def hexCode (pos : ℕ) (w : UInt32) : List Char :=
  if pos = 62 then [] else hexText w

/-- The rendering the format loop carries out. -/
def renderCode (args : ℕ → UInt32) (strAt : UInt32 → List Char) (fmt : List Char) : List Char :=
  renderWith decimalCode hexCode args strAt fmt 0 0

/-- The reference rendering, with `%x` printed only where `snprintf_hex` gets room for `0x`. -/
def renderBounded (args : ℕ → UInt32) (strAt : UInt32 → List Char) (fmt : List Char) :
    List Char :=
  renderWith decimalText hexCode args strAt fmt 0 0

/-- The `int`s that the `%d` conversions of a format read, in order, from argument index `ap`. -/
def decimalArgs (args : ℕ → UInt32) : List Char → ℕ → List ℤ
  | [], _ => []
  | c :: fmt, ap =>
    if c = '\x00' then []
    else if c ≠ '%' then decimalArgs args fmt ap
    else
      match fmt with
      | [] => []
      | d :: fmt =>
        if d = '\x00' then []
        else
          match d with
          | 'd' => asInt (args ap) :: decimalArgs args fmt (ap + 1)
          | 'x' | 's' => decimalArgs args fmt (ap + 1)
          | _ => decimalArgs args fmt ap

section Unfold

variable (dec : ℤ → List Char) (hex : ℕ → UInt32 → List Char) (args : ℕ → UInt32)
  (strAt : UInt32 → List Char) (fmt : List Char) (ap pos : ℕ)

/-- One step of the rendering, as the definition takes it. -/
theorem renderWith_cons (c : Char) :
    renderWith dec hex args strAt (c :: fmt) ap pos =
      if c = '\x00' then []
      else if c ≠ '%' then c :: renderWith dec hex args strAt fmt ap (pos + 1)
      else
        match fmt with
        | [] => []
        | d :: fmt =>
          if d = '\x00' then []
          else
            match d with
            | 'd' =>
              dec (asInt (args ap)) ++
                renderWith dec hex args strAt fmt (ap + 1) (pos + (dec (asInt (args ap))).length)
            | 'x' =>
              hex pos (args ap) ++
                renderWith dec hex args strAt fmt (ap + 1) (pos + (hex pos (args ap)).length)
            | 's' =>
              strText strAt (args ap) ++
                renderWith dec hex args strAt fmt (ap + 1) (pos + (strText strAt (args ap)).length)
            | '%' => '%' :: renderWith dec hex args strAt fmt ap (pos + 1)
            | _ => '%' :: d :: renderWith dec hex args strAt fmt ap (pos + 2) :=
  renderWith.eq_def dec hex args strAt (c :: fmt) ap pos

theorem renderWith_nul {c : Char} (hnul : c = '\x00') :
    renderWith dec hex args strAt (c :: fmt) ap pos = [] := by
  rw [renderWith_cons, if_pos hnul]

theorem renderWith_literal {c : Char} (hnul : c ≠ '\x00') (hpct : c ≠ '%') :
    renderWith dec hex args strAt (c :: fmt) ap pos =
      c :: renderWith dec hex args strAt fmt ap (pos + 1) := by
  rw [renderWith_cons, if_neg hnul, if_pos hpct]

/-- A trailing lone `%` ends the rendering. -/
theorem renderWith_pct_nil : renderWith dec hex args strAt ['%'] ap pos = [] := rfl

/-- So does a `%` before the NUL. -/
theorem renderWith_pct_nul : renderWith dec hex args strAt ('%' :: '\x00' :: fmt) ap pos = [] :=
  rfl

theorem renderWith_int :
    renderWith dec hex args strAt ('%' :: 'd' :: fmt) ap pos =
      dec (asInt (args ap)) ++
        renderWith dec hex args strAt fmt (ap + 1) (pos + (dec (asInt (args ap))).length) :=
  rfl

theorem renderWith_hex :
    renderWith dec hex args strAt ('%' :: 'x' :: fmt) ap pos =
      hex pos (args ap) ++
        renderWith dec hex args strAt fmt (ap + 1) (pos + (hex pos (args ap)).length) :=
  rfl

theorem renderWith_str :
    renderWith dec hex args strAt ('%' :: 's' :: fmt) ap pos =
      strText strAt (args ap) ++
        renderWith dec hex args strAt fmt (ap + 1) (pos + (strText strAt (args ap)).length) :=
  rfl

theorem renderWith_pct :
    renderWith dec hex args strAt ('%' :: '%' :: fmt) ap pos =
      '%' :: renderWith dec hex args strAt fmt ap (pos + 1) :=
  rfl

theorem renderWith_unknown {d : Char} (hd : d ∉ ['\x00', 'd', 'x', 's', '%']) :
    renderWith dec hex args strAt ('%' :: d :: fmt) ap pos =
      '%' :: d :: renderWith dec hex args strAt fmt ap (pos + 2) := by
  obtain ⟨hnul, hd', hx, hs, hpct⟩ := not_mem_conversions_iff.mp hd
  rw [renderWith_cons, if_neg (by decide), if_neg (by decide)]
  dsimp only
  rw [if_neg hnul]
  -- the match on the conversion character falls through to its default branch
  split
  · exact absurd rfl hd'
  · exact absurd rfl hx
  · exact absurd rfl hs
  · exact absurd rfl hpct
  · rfl

end Unfold

/-! ## The helpers' digits -/

theorem ofNat_zero_add_eq_digitChar {d : ℕ} (hd : d < 10) :
    Char.ofNat ('0'.toNat + d) = Nat.digitChar d := by
  interval_cases d <;> rfl

theorem hexDigitChars_getD {d : ℕ} (hd : d < 16) : hexDigitChars.getD d '0' = Nat.digitChar d := by
  interval_cases d <;> rfl

/-- The digit loop of `snprintf_int` on a non-negative value is the digit loop in base `10`. -/
theorem intDigits_natCast : ∀ (m room : ℕ), intDigits (m : ℤ) room = DigitLoop.lsbDigits 10 m room
  | _, 0 => rfl
  | m, room + 1 => by
    rw [intDigits, DigitLoop.lsbDigits]
    by_cases hm : 0 < m
    · have hmod : (m : ℤ) % 10 = ((m % 10 : ℕ) : ℤ) := by omega
      have hdiv : (m : ℤ) / 10 = ((m / 10 : ℕ) : ℤ) := by omega
      rw [if_pos (by omega), if_pos hm, hmod, hdiv, Int.toNat_natCast, intDigits_natCast,
        ofNat_zero_add_eq_digitChar (Nat.mod_lt _ (by omega))]
    · rw [if_neg (by omega), if_neg hm]

/-- The digit loop of `snprintf_hex` is the digit loop in base `16`: `val & 0xf` and `val >> 4`
are the remainder and the quotient by `16`. -/
theorem hexDigits_eq_lsbDigits :
    ∀ (v : UInt32) (room : ℕ), hexDigits v room = DigitLoop.lsbDigits 16 v.toNat room
  | _, 0 => rfl
  | v, room + 1 => by
    have hand : (v &&& 0xf).toNat = v.toNat % 16 := by
      rw [UInt32.toNat_and]
      exact Nat.and_two_pow_sub_one_eq_mod _ 4
    have hshr : (v >>> 4).toNat = v.toNat / 16 := by
      rw [UInt32.toNat_shiftRight]
      simp [Nat.shiftRight_eq_div_pow]
    have hpos : 0 < v ↔ 0 < v.toNat := UInt32.lt_iff_toNat_lt
    rw [hexDigits, DigitLoop.lsbDigits]
    by_cases hm : 0 < v
    · rw [if_pos hm, if_pos (hpos.mp hm), hand, hexDigitChars_getD (Nat.mod_lt _ (by omega)),
        hexDigits_eq_lsbDigits, hshr]
    · rw [if_neg hm, if_neg (mt hpos.mpr hm)]

/-- The digits `snprintf_int` pops, for an `int` other than `INT_MIN`: its magnitude in
decimal. -/
theorem snprintfInt_digits {val : ℤ} (hlo : -2 ^ 31 < val) (hhi : val < 2 ^ 31) :
    (if (if val < 0 then (-val).bmod (2 ^ 32) else val) = 0 then ['0']
      else intDigits (if val < 0 then (-val).bmod (2 ^ 32) else val) 16).reverse =
      Nat.toDigits 10 val.natAbs := by
  -- `val = -val` does not wrap away from `INT_MIN`
  have hv : (if val < 0 then (-val).bmod (2 ^ 32) else val) = (val.natAbs : ℤ) := by
    rw [Int.natCast_natAbs]
    split_ifs with hneg
    · rw [abs_of_neg hneg, Int.bmod]
      push_cast
      split_ifs <;> omega
    · rw [abs_of_nonneg (by omega)]
  rw [hv]
  by_cases h0 : val.natAbs = 0
  · rw [h0, Nat.toDigits_zero]
    rfl
  · rw [if_neg (by omega), intDigits_natCast,
      DigitLoop.lsbDigits_eq_reverse_toDigits (by omega) (by omega) (by omega),
      List.reverse_reverse]

/-- `snprintf_int` finds no digit of `INT_MIN`. -/
theorem snprintfInt_digits_intMin :
    (if (if (-2 ^ 31 : ℤ) < 0 then (-(-2 ^ 31 : ℤ)).bmod (2 ^ 32) else -2 ^ 31) = 0 then ['0']
      else intDigits (if (-2 ^ 31 : ℤ) < 0 then (-(-2 ^ 31 : ℤ)).bmod (2 ^ 32) else -2 ^ 31)
        16).reverse = [] := by
  decide

/-- The digits `snprintf_hex` pops: the hexadecimal of the value. -/
theorem snprintfHex_digits (val : UInt32) :
    (if val = 0 then ['0'] else hexDigits val 16).reverse = Nat.toDigits 16 val.toNat := by
  by_cases h0 : val = 0
  · rw [if_pos h0, h0]
    rfl
  · have hpos : 0 < val.toNat := by
      have := UInt32.toNat_inj.not.mpr h0
      simp only [UInt32.toNat_zero] at this
      omega
    rw [if_neg h0, hexDigits_eq_lsbDigits,
      DigitLoop.lsbDigits_eq_reverse_toDigits (by omega) hpos
        (lt_of_lt_of_le (UInt32.toNat_lt val) (by norm_num)),
      List.reverse_reverse]

/-! ## Each branch emits its piece -/

/-- The pop loop emits the digits given, from column `base + j`, into the columns below
`base + limit`. -/
theorem emitDigits_emits (base : ℕ) (limit : ℤ) :
    ∀ (cs : List Char) (b : LineBuf) (j : ℕ),
      Emits (base + limit.toNat) b.bytes (emitDigits base limit cs b j).1.bytes (base + j)
        (base + (emitDigits base limit cs b j).2) cs
  | [], b, j => .refl _ _
  | c :: cs, b, j => by
    rw [emitDigits]
    split_ifs with hlt
    · exact (Emits.write b.bytes (base + j) c).trans
        (emitDigits_emits base limit cs (b.write (base + j) c) (j + 1))
    · exact .of_cap_le _ (by omega) _

/-- After what was written before it, the pop loop and the terminator `buf[j] = 0` emit the
digits: the terminator lands where the loop stopped. -/
theorem emitDigits_terminated_emits (base : ℕ) (limit : ℤ) (cs : List Char) {b₀ b : LineBuf}
    {j : ℕ} {t : List Char} (hpre : Emits (base + limit.toNat) b₀.bytes b.bytes base (base + j) t) :
    Emits (base + limit.toNat) b₀.bytes
      ((emitDigits base limit cs b j).1.write (base + (emitDigits base limit cs b j).2)
        '\x00').bytes base (base + (emitDigits base limit cs b j).2) (t ++ cs) :=
  (hpre.trans (emitDigits_emits base limit cs b j)).update_of_le le_rfl _

section Size

variable (b : LineBuf) (base : ℕ) {size : ℤ}

/-- **`snprintf_int` prints the decimal as far as `size` allows**, `INT_MIN` as `-`. -/
theorem snprintfInt_emits (hsize : 0 < size) {val : ℤ} (hlo : -2 ^ 31 ≤ val) (hhi : val < 2 ^ 31) :
    Emits (base + (size - 1).toNat) b.bytes (snprintfInt b base size val).1.bytes base
      (base + (snprintfInt b base size val).2) (decimalCode val) := by
  rw [snprintfInt, if_neg (by omega)]
  dsimp only
  by_cases hsign : val < 0 ∧ 0 < size - 1
  · -- the sign is written at column `0` and the digits follow
    rw [if_pos hsign]
    have hpre : Emits (base + (size - 1).toNat) b.bytes (b.write base '-').bytes base (base + 1)
        ['-'] := Emits.write _ _ _
    by_cases hmin : val = -2 ^ 31
    · subst hmin
      rw [snprintfInt_digits_intMin, decimalCode, if_pos rfl]
      have h := emitDigits_terminated_emits base (size - 1) [] hpre
      rwa [List.append_nil] at h
    · rw [snprintfInt_digits (by omega) hhi, decimalCode, if_neg hmin, decimalText,
        if_pos hsign.1]
      exact emitDigits_terminated_emits base (size - 1) _ hpre
  · rw [if_neg hsign]
    have hpre : Emits (base + (size - 1).toNat) b.bytes b.bytes base (base + 0) [] :=
      Emits.refl _ _
    by_cases hneg : val < 0
    · -- a negative value with `size = 1`: nothing fits
      exact (emitDigits_terminated_emits base (size - 1) _ hpre).text_of_cap_le (by omega) _
    · rw [snprintfInt_digits (by omega) hhi, decimalCode, if_neg (by omega), decimalText,
        if_neg hneg]
      exact emitDigits_terminated_emits base (size - 1) _ hpre

/-- **`snprintf_hex` prints `0x` and the hexadecimal as far as `size` allows**, when `size` has
room for `0x` and the terminator. -/
theorem snprintfHex_emits (hsize : 2 < size) (val : UInt32) :
    Emits (base + (size - 1).toNat) b.bytes (snprintfHex b base size val).1.bytes base
      (base + (snprintfHex b base size val).2) (hexText val) := by
  rw [snprintfHex, if_neg (by omega)]
  dsimp only
  have hpre : Emits (base + (size - 1).toNat) b.bytes ((b.write base '0').write (base + 1) 'x').bytes
      base (base + 2) ['0', 'x'] :=
    (Emits.write b.bytes base '0').trans (Emits.write _ (base + 1) 'x')
  rw [snprintfHex_digits]
  exact emitDigits_terminated_emits base (size - 1) _ hpre

end Size

/-- `%s` emits its string up to the NUL. -/
theorem copyStr_emits :
    ∀ (s : List Char) (b : LineBuf) (i : ℕ),
      Emits 63 b.bytes (copyStr s b i).1.bytes i (copyStr s b i).2 (s.takeWhile (· ≠ '\x00'))
  | [], b, i => .refl _ _
  | c :: cs, b, i => by
    rw [copyStr]
    split_ifs with hcopy
    · rw [List.takeWhile_cons_of_pos (by simpa using hcopy.1)]
      exact (Emits.write b.bytes i c).trans (copyStr_emits cs (b.write i c) (i + 1))
    · by_cases hnul : c = '\x00'
      · rw [List.takeWhile_cons_of_neg (by simpa using hnul)]
        exact .refl _ _
      · exact .of_cap_le _ (Nat.le_of_not_lt fun hi ↦ hcopy ⟨hnul, hi⟩) _

/-! ## The format loop -/

/-- **The format loop emits `renderCode`** from the column it starts at, cut at column `63`. -/
theorem formatLoop_emits (args : ℕ → UInt32) (strAt : UInt32 → List Char) (fmt : List Char)
    (ap i : ℕ) (b : LineBuf) :
    Emits 63 b.bytes (formatLoop args strAt fmt ap i b).1.bytes i
      (formatLoop args strAt fmt ap i b).2 (renderWith decimalCode hexCode args strAt fmt ap i) := by
  fun_induction formatLoop args strAt fmt ap i b with
  | case1 => exact .refl _ _
  | case2 c fmt ap i b hstop =>
    by_cases hnul : c = '\x00'
    · rw [renderWith_nul _ _ _ _ _ _ _ hnul]
      exact .refl _ _
    · exact .of_cap_le _ (hstop.resolve_left hnul) _
  | case3 c fmt ap i b hgo hne ih =>
    rw [renderWith_literal _ _ _ _ _ _ _ (not_or.mp hgo).1 hne]
    exact (Emits.write b.bytes i c).trans ih
  | case4 c ap i b hgo hpct =>
    obtain rfl : c = '%' := not_not.mp hpct
    rw [renderWith_pct_nil]
    exact .refl _ _
  | case5 c ap i b hgo hpct fmt =>
    obtain rfl : c = '%' := not_not.mp hpct
    rw [renderWith_pct_nul]
    exact .refl _ _
  | case6 c ap i b₀ hgo hpct fmt b j hcall hd ih =>
    obtain rfl : c = '%' := not_not.mp hpct
    have hi : i < 63 := by have := (not_or.mp hgo).2; omega
    rw [renderWith_int]
    have hpiece := snprintfInt_emits b₀ i (show (0 : ℤ) < 64 - i by omega)
      (show -2 ^ 31 ≤ asInt (args ap) by unfold asInt; exact Int.le_bmod (by norm_num))
      (show asInt (args ap) < 2 ^ 31 by unfold asInt; exact Int.bmod_lt (by norm_num))
    rw [hcall, show i + (64 - (i : ℤ) - 1).toNat = 63 by omega] at hpiece
    exact hpiece.trans_at
      (g := fun p ↦ renderWith decimalCode hexCode args strAt fmt (ap + 1) p) ih
  | case7 c ap i b₀ hgo hpct fmt b j hcall hd ih =>
    obtain rfl : c = '%' := not_not.mp hpct
    have hi : i < 63 := by have := (not_or.mp hgo).2; omega
    rw [renderWith_hex]
    have hpiece : Emits 63 b₀.bytes b.bytes i (i + j) (hexCode i (args ap)) := by
      by_cases h62 : i = 62
      · -- two bytes left: too few for `0x`, so nothing is printed
        subst h62
        rw [snprintfHex, if_pos (by norm_num)] at hcall
        obtain ⟨rfl, rfl⟩ := Prod.mk.inj hcall
        rw [hexCode, if_pos rfl]
        exact .refl _ _
      · have h := snprintfHex_emits b₀ i (show (2 : ℤ) < 64 - i by omega) (args ap)
        rw [hcall, show i + (64 - (i : ℤ) - 1).toNat = 63 by omega] at h
        rwa [hexCode, if_neg h62]
    exact hpiece.trans_at
      (g := fun p ↦ renderWith decimalCode hexCode args strAt fmt (ap + 1) p) ih
  | case8 c ap i b₀ hgo hpct fmt b j hcall hd ih =>
    obtain rfl : c = '%' := not_not.mp hpct
    rw [renderWith_str]
    have hpiece := copyStr_emits (if args ap = 0 then nullStr else strAt (args ap)) b₀ i
    rw [hcall] at hpiece
    exact hpiece.trans_at
      (g := fun p ↦ renderWith decimalCode hexCode args strAt fmt (ap + 1) p) ih
  | case9 c ap i b hgo hpct fmt hd ih =>
    obtain rfl : c = '%' := not_not.mp hpct
    rw [renderWith_pct]
    exact (Emits.write b.bytes i '%').trans ih
  | case10 c ap i b hgo hpct d fmt hd hnd hnx hns hnp ih =>
    obtain rfl : c = '%' := not_not.mp hpct
    have hunk : d ∉ ['\x00', 'd', 'x', 's', '%'] :=
      not_mem_conversions_iff.mpr ⟨hd, hnd, hnx, hns, hnp⟩
    rw [renderWith_unknown _ _ _ _ _ _ _ hunk]
    exact ((Emits.write b.bytes i '%').trans (Emits.write _ (i + 1) d)).trans ih

/-! ## No piece holds a NUL -/

theorem nul_not_mem_toDigits {b n : ℕ} (hb : 1 < b) : '\x00' ∉ Nat.toDigits b n := fun h ↦ by
  obtain ⟨d, hd⟩ := DigitLoop.exists_digitChar_of_mem_toDigits hb h
  exact Nat.digitChar_ne _ (by decide) hd.symm

theorem nul_not_mem_decimalCode (v : ℤ) : '\x00' ∉ decimalCode v := by
  rw [decimalCode, decimalText]
  split_ifs
  · simp
  · simpa using nul_not_mem_toDigits (by omega)
  · simpa using nul_not_mem_toDigits (by omega)

theorem nul_not_mem_hexCode (pos : ℕ) (w : UInt32) : '\x00' ∉ hexCode pos w := by
  rw [hexCode, hexText]
  split_ifs
  · exact List.not_mem_nil
  · simpa using nul_not_mem_toDigits (by omega)

theorem nul_not_mem_strText (strAt : UInt32 → List Char) (w : UInt32) :
    '\x00' ∉ strText strAt w := fun h ↦ by
  simpa using List.mem_takeWhile_imp h

/-- A rendering holds no NUL when its numbers hold none. -/
theorem nul_not_mem_renderWith {dec : ℤ → List Char} {hex : ℕ → UInt32 → List Char}
    (hdec : ∀ v, '\x00' ∉ dec v) (hhex : ∀ p w, '\x00' ∉ hex p w) (args : ℕ → UInt32)
    (strAt : UInt32 → List Char) (fmt : List Char) (ap pos : ℕ) :
    '\x00' ∉ renderWith dec hex args strAt fmt ap pos := by
  fun_induction renderWith dec hex args strAt fmt ap pos with
  | case1 | case2 | case4 | case5 => exact List.not_mem_nil
  | case3 c fmt ap pos hnul hpct ih => exact List.not_mem_cons_of_ne_of_not_mem (Ne.symm hnul) ih
  | case6 c ap pos hnul hpct fmt t hd ih =>
    exact fun h ↦ (List.mem_append.mp h).elim (hdec _) ih
  | case7 c ap pos hnul hpct fmt t hd ih =>
    exact fun h ↦ (List.mem_append.mp h).elim (hhex _ _) ih
  | case8 c ap pos hnul hpct fmt t hd ih =>
    exact fun h ↦ (List.mem_append.mp h).elim (nul_not_mem_strText _ _) ih
  | case9 c ap pos hnul hpct fmt hd ih => exact List.not_mem_cons_of_ne_of_not_mem (by decide) ih
  | case10 c ap pos hnul hpct d fmt hd _ _ _ _ ih =>
    exact List.not_mem_cons_of_ne_of_not_mem (by decide)
      (List.not_mem_cons_of_ne_of_not_mem (Ne.symm hd) ih)

/-! ## The `%d` arguments

The rendering uses how `%d` prints only at the arguments its `%d` conversions read, the list
`decimalArgs`; two printers that agree there give one rendering (`renderWith_congr_dec`). -/

section DecimalArgs

variable (args : ℕ → UInt32) (fmt : List Char) (ap : ℕ)

/-- One step of `decimalArgs`, as the definition takes it. -/
theorem decimalArgs_cons (c : Char) :
    decimalArgs args (c :: fmt) ap =
      if c = '\x00' then []
      else if c ≠ '%' then decimalArgs args fmt ap
      else
        match fmt with
        | [] => []
        | d :: fmt =>
          if d = '\x00' then []
          else
            match d with
            | 'd' => asInt (args ap) :: decimalArgs args fmt (ap + 1)
            | 'x' | 's' => decimalArgs args fmt (ap + 1)
            | _ => decimalArgs args fmt ap :=
  decimalArgs.eq_def args (c :: fmt) ap

theorem decimalArgs_literal {c : Char} (hnul : c ≠ '\x00') (hpct : c ≠ '%') :
    decimalArgs args (c :: fmt) ap = decimalArgs args fmt ap := by
  rw [decimalArgs_cons, if_neg hnul, if_pos hpct]

theorem decimalArgs_int :
    decimalArgs args ('%' :: 'd' :: fmt) ap = asInt (args ap) :: decimalArgs args fmt (ap + 1) :=
  rfl

theorem decimalArgs_hex :
    decimalArgs args ('%' :: 'x' :: fmt) ap = decimalArgs args fmt (ap + 1) :=
  rfl

theorem decimalArgs_str :
    decimalArgs args ('%' :: 's' :: fmt) ap = decimalArgs args fmt (ap + 1) :=
  rfl

theorem decimalArgs_pct : decimalArgs args ('%' :: '%' :: fmt) ap = decimalArgs args fmt ap :=
  rfl

theorem decimalArgs_unknown {d : Char} (hd : d ∉ ['\x00', 'd', 'x', 's', '%']) :
    decimalArgs args ('%' :: d :: fmt) ap = decimalArgs args fmt ap := by
  obtain ⟨hnul, hd', hx, hs, hpct⟩ := not_mem_conversions_iff.mp hd
  rw [decimalArgs_cons, if_neg (by decide), if_neg (by decide)]
  dsimp only
  rw [if_neg hnul]
  split
  · exact absurd rfl hd'
  · exact absurd rfl hx
  · exact absurd rfl hs
  · rfl

end DecimalArgs

/-- **The rendering reads `%d`'s printer only at the `%d` arguments.** -/
theorem renderWith_congr_dec {dec dec' : ℤ → List Char} (hex : ℕ → UInt32 → List Char)
    (args : ℕ → UInt32) (strAt : UInt32 → List Char) (fmt : List Char) (ap pos : ℕ)
    (h : ∀ v ∈ decimalArgs args fmt ap, dec v = dec' v) :
    renderWith dec hex args strAt fmt ap pos = renderWith dec' hex args strAt fmt ap pos := by
  fun_induction renderWith dec hex args strAt fmt ap pos with
  | case1 => rfl
  | case2 => rw [renderWith_nul _ _ _ _ _ _ _ rfl]
  | case3 c fmt ap pos hnul hpct ih =>
    rw [decimalArgs_literal _ _ _ hnul hpct] at h
    rw [renderWith_literal _ _ _ _ _ _ _ hnul hpct, ih h]
  | case4 c ap pos hnul hpct =>
    obtain rfl : c = '%' := not_not.mp hpct
    rfl
  | case5 c ap pos hnul hpct fmt =>
    obtain rfl : c = '%' := not_not.mp hpct
    rfl
  | case6 c ap pos hnul hpct fmt t hd ih =>
    obtain rfl : c = '%' := not_not.mp hpct
    rw [decimalArgs_int] at h
    -- the argument prints the same, so the rest of the format starts at the same column
    have hv : dec (asInt (args ap)) = dec' (asInt (args ap)) := h _ List.mem_cons_self
    rw [renderWith_int, ← hv, ih fun v hv' ↦ h v (List.mem_cons_of_mem _ hv')]
  | case7 c ap pos hnul hpct fmt t hd ih =>
    obtain rfl : c = '%' := not_not.mp hpct
    rw [decimalArgs_hex] at h
    rw [renderWith_hex, ih h]
  | case8 c ap pos hnul hpct fmt t hd ih =>
    obtain rfl : c = '%' := not_not.mp hpct
    rw [decimalArgs_str] at h
    rw [renderWith_str, ih h]
  | case9 c ap pos hnul hpct fmt hd ih =>
    obtain rfl : c = '%' := not_not.mp hpct
    rw [decimalArgs_pct] at h
    rw [renderWith_pct, ih h]
  | case10 c ap pos hnul hpct d fmt hd hnd hnx hns hnp ih =>
    obtain rfl : c = '%' := not_not.mp hpct
    have hunk : d ∉ ['\x00', 'd', 'x', 's', '%'] :=
      not_mem_conversions_iff.mpr ⟨hd, hnd, hnx, hns, hnp⟩
    rw [decimalArgs_unknown _ _ _ hunk] at h
    rw [renderWith_unknown _ _ _ _ _ _ _ hunk, ih h]

/-! ## The message -/

/-- **The formatted line reads as `renderCode`, cut at 63 characters**: the loop emits it from
column `0`, and the terminator `buf[i] = 0` follows it. -/
theorem msgText_formatLine (stack : ℕ → Char) (fmt : List Char) (args : ℕ → UInt32)
    (strAt : UInt32 → List Char) :
    msgText (formatLine stack fmt args strAt).bytes = (renderCode args strAt fmt).take 63 :=
  (formatLoop_emits args strAt fmt 0 0 ⟨stack, []⟩).takeWhile_range '\x00'
    (nul_not_mem_renderWith nul_not_mem_decimalCode nul_not_mem_hexCode _ _ _ _ _)

/-- The C string of an appended entry's message is its call's formatted line, up to its NUL. -/
theorem cstr_toEntry_msg (call : LogCall) (seq : UInt32) (old : Fin 64 → Char) :
    cstr (call.toEntry seq old).msg = msgText call.line.bytes :=
  cstr_copyMsg _ _

/-- The message of an appended entry is `renderCode` of its call, cut at 63 characters, whatever
the stack and the slot held before. -/
theorem cstr_msg_eq_renderCode (call : LogCall) (seq : UInt32) (old : Fin 64 → Char) :
    cstr (call.toEntry seq old).msg = (renderCode call.args call.strAt call.fmt).take 63 := by
  rw [cstr_toEntry_msg]
  exact msgText_formatLine call.stack call.fmt call.args call.strAt

/-- `snprintf_int` prints the signed decimal of every `int` but `INT_MIN`. -/
theorem decimalCode_of_ne {v : ℤ} (hv : v ≠ -2 ^ 31) : decimalCode v = decimalText v :=
  if_neg hv

/-- **What an appended entry says.** When no `%d` of the format reads `INT_MIN`, the message of
the entry `klog_printf_internal` builds for a call is the reference rendering, with `%x` printed
only where `snprintf_hex` has room for `0x`, cut at 63 characters. -/
theorem msg_renders_code (call : LogCall) (seq : UInt32) (old : Fin 64 → Char)
    (hmin : -2 ^ 31 ∉ decimalArgs call.args call.fmt 0) :
    cstr (call.toEntry seq old).msg = (renderBounded call.args call.strAt call.fmt).take 63 := by
  rw [cstr_msg_eq_renderCode, renderCode, renderBounded,
    renderWith_congr_dec _ _ _ _ _ _ fun v hv ↦ decimalCode_of_ne (ne_of_mem_of_not_mem hv hmin)]

theorem msg_renders_code_decimal :
    -2 ^ 31 ∉ decimalArgs (fun _ ↦ 7) ['p', '=', '%', 'd'] 0 ∧
      cstr (({ cpu := 0, pid := 0, level := 0, fmt := ['p', '=', '%', 'd'],
               args := fun _ ↦ 7, strAt := fun _ ↦ [], tsc := (0, 0),
               stack := fun _ ↦ '\x00' } : LogCall).toEntry 0 fun _ ↦ '\x00').msg =
        (renderBounded (fun _ ↦ 7) (fun _ ↦ []) ['p', '=', '%', 'd']).take 63 :=
  ⟨by decide, msg_renders_code _ 0 _ (by decide)⟩

/-- **The message is not always the reference rendering cut to 63 characters.** `%d` of
`INT_MIN` prints `-` alone, and `%x` at column `62` prints nothing, so that 62 letters and `%x`
give the 62 letters where the rendering has a `0` after them. -/
theorem msg_differs_from_render :
    cstr (({ cpu := 0, pid := 0, level := 0, fmt := ['v', '=', '%', 'd'],
             args := fun _ ↦ 0x80000000, strAt := fun _ ↦ [], tsc := (0, 0),
             stack := fun _ ↦ '\x00' } : LogCall).toEntry 0 fun _ ↦ '\x00').msg ≠
      (render (fun _ ↦ 0x80000000) (fun _ ↦ []) ['v', '=', '%', 'd']).take 63 ∧
    cstr (({ cpu := 0, pid := 0, level := 0, fmt := List.replicate 62 'a' ++ ['%', 'x'],
             args := fun _ ↦ 0, strAt := fun _ ↦ [], tsc := (0, 0),
             stack := fun _ ↦ '\x00' } : LogCall).toEntry 0 fun _ ↦ '\x00').msg ≠
      (render (fun _ ↦ 0) (fun _ ↦ []) (List.replicate 62 'a' ++ ['%', 'x'])).take 63 := by
  constructor
  · rw [cstr_toEntry_msg, LogCall.line, msgText_formatLine]
    decide
  · rw [cstr_toEntry_msg, LogCall.line, msgText_formatLine]
    decide

end Klog

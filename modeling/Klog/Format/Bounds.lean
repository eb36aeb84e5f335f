import Klog.Model.Format

/-!
# Where the format loop writes

The format loop of `klog_printf_internal` writes into `char buf[64]` at the position `i`, which
its six branches advance by different amounts: one for a literal and for `%%`, what
`snprintf_int` and `snprintf_hex` return, the bytes `%s` copies, and two for an unknown
conversion. The loop runs while `i < 63`, and the helpers get `sizeof(buf) - i` as their size and
stay inside it, so every branch but the last keeps `i ≤ 63` and writes below `64`.

The branch for an unknown conversion writes `buf[i]` and `buf[i + 1]` after checking only
`i < 63`. At `i = 62` it writes `buf[63]`, still inside `buf`, and leaves `i = 64`; the loop then
stops, and `buf[i] = 0` writes one byte past the end (`format_writes_past_buf`).
-/

namespace Klog

/-! ## Writes -/

@[simp] theorem LineBuf.write_written (b : LineBuf) (k : ℕ) (c : Char) :
    (b.write k c).written = k :: b.written := rfl

theorem LineBuf.write_bytes (b : LineBuf) (k : ℕ) (c : Char) (x : ℕ) :
    (b.write k c).bytes x = if x = k then c else b.bytes x :=
  Function.update_apply _ _ _ _

/-- Every offset written on the way from `b` to `b'` is below `hi`. -/
def LineBuf.WritesBelow (b b' : LineBuf) (hi : ℕ) : Prop :=
  ∀ x ∈ b'.written, x ∈ b.written ∨ x < hi

namespace LineBuf.WritesBelow

variable {b b' b'' : LineBuf} {hi : ℕ}

theorem refl (b : LineBuf) (hi : ℕ) : b.WritesBelow b hi := fun _ hx ↦ .inl hx

theorem trans (h : b.WritesBelow b' hi) (h' : b'.WritesBelow b'' hi) : b.WritesBelow b'' hi := by
  intro x hx
  rcases h' x hx with hx' | hlt
  · exact h x hx'
  · exact .inr hlt

theorem mono {hi' : ℕ} (h : b.WritesBelow b' hi) (hle : hi ≤ hi') : b.WritesBelow b' hi' := by
  intro x hx
  rcases h x hx with hx' | hlt
  · exact .inl hx'
  · exact .inr (by omega)

theorem write {k : ℕ} (h : b.WritesBelow b' hi) (c : Char) (hk : k < hi) :
    b.WritesBelow (b'.write k c) hi := by
  intro x hx
  rw [LineBuf.write_written, List.mem_cons] at hx
  rcases hx with rfl | hx
  · exact .inr hk
  · exact h x hx

end LineBuf.WritesBelow

/-! ## The helpers stay inside their size -/

/-- The pop loop writes below `base + limit` and stops by `limit`. -/
theorem emitDigits_bounds (base : ℕ) (limit : ℤ) :
    ∀ (cs : List Char) (b : LineBuf) (j : ℕ), (j : ℤ) ≤ limit →
      ((emitDigits base limit cs b j).2 : ℤ) ≤ limit ∧
        b.WritesBelow (emitDigits base limit cs b j).1 (base + limit.toNat)
  | [], b, j, hj => ⟨hj, .refl b _⟩
  | c :: cs, b, j, hj => by
    rw [emitDigits]
    split_ifs with hlt
    · obtain ⟨hle, hw⟩ := emitDigits_bounds base limit cs (b.write (base + j) c) (j + 1)
        (by omega)
      exact ⟨hle, ((LineBuf.WritesBelow.refl b _).write c (by omega)).trans hw⟩
    · exact ⟨hj, .refl b _⟩

section Size

variable (b : LineBuf) (base : ℕ) {size : ℤ} (hsize : 0 < size)
include hsize

/-- **`snprintf_int` stays inside its size**: it returns at most `size - 1` and writes below
`base + size`. -/
theorem snprintfInt_bounds (val : ℤ) :
    ((snprintfInt b base size val).2 : ℤ) ≤ size - 1 ∧
      b.WritesBelow (snprintfInt b base size val).1 (base + size.toNat) := by
  rw [snprintfInt, if_neg (by omega)]
  dsimp only
  -- the sign takes position `0` when there is room for it, and the digits follow
  obtain ⟨b₁, j₁, hsign, hj, hw⟩ : ∃ (b₁ : LineBuf) (j₁ : ℕ),
      (if val < 0 ∧ 0 < size - 1 then (b.write base '-', 1) else (b, 0)) = (b₁, j₁) ∧
        (j₁ : ℤ) ≤ size - 1 ∧ b.WritesBelow b₁ (base + size.toNat) := by
    split_ifs with hneg
    · exact ⟨_, _, rfl, by omega, (LineBuf.WritesBelow.refl b _).write '-' (by omega)⟩
    · exact ⟨_, _, rfl, by omega, .refl b _⟩
  rw [hsign]
  dsimp only
  generalize (if (if val < 0 then (-val).bmod (2 ^ 32) else val) = 0 then ['0']
      else intDigits (if val < 0 then (-val).bmod (2 ^ 32) else val) 16).reverse = ds
  obtain ⟨hj', hw'⟩ := emitDigits_bounds base (size - 1) ds b₁ j₁ hj
  generalize emitDigits base (size - 1) ds b₁ j₁ = e at hj' hw'
  obtain ⟨b₂, j₂⟩ := e
  exact ⟨hj', (hw.trans (hw'.mono (by omega))).write '\x00' (by omega)⟩

/-- **`snprintf_hex` stays inside its size**. -/
theorem snprintfHex_bounds (val : UInt32) :
    ((snprintfHex b base size val).2 : ℤ) ≤ size - 1 ∧
      b.WritesBelow (snprintfHex b base size val).1 (base + size.toNat) := by
  rw [snprintfHex]
  by_cases hsmall : size ≤ 2
  · rw [if_pos hsmall]
    exact ⟨by simp; omega, .refl b _⟩
  rw [if_neg hsmall]
  dsimp only
  -- `0x` takes positions `0` and `1`, and the digits follow from `2`
  have hhead : b.WritesBelow ((b.write base '0').write (base + 1) 'x') (base + size.toNat) :=
    ((LineBuf.WritesBelow.refl b _).write '0' (by omega)).write 'x' (by omega)
  generalize (if val = 0 then ['0'] else hexDigits val 16).reverse = ds
  obtain ⟨hj, hw⟩ := emitDigits_bounds base (size - 1) ds
    ((b.write base '0').write (base + 1) 'x') 2 (by omega)
  generalize emitDigits base (size - 1) ds ((b.write base '0').write (base + 1) 'x') 2 = e at hj hw
  obtain ⟨b₂, j₂⟩ := e
  exact ⟨hj, (hhead.trans (hw.mono (by omega))).write '\x00' (by omega)⟩

end Size

/-- `%s` copies below position `63` and stops by it. -/
theorem copyStr_bounds :
    ∀ (s : List Char) (b : LineBuf) (i : ℕ), i ≤ 63 →
      (copyStr s b i).2 ≤ 63 ∧ b.WritesBelow (copyStr s b i).1 63
  | [], b, i, hi => ⟨hi, .refl b _⟩
  | c :: cs, b, i, hi => by
    rw [copyStr]
    split_ifs with hcopy
    · obtain ⟨hle, hw⟩ := copyStr_bounds cs (b.write i c) (i + 1) (by omega)
      exact ⟨hle, ((LineBuf.WritesBelow.refl b _).write c hcopy.2).trans hw⟩
    · exact ⟨hi, .refl b _⟩

/-! ## The format loop -/

/-- From position `63` on, the loop does nothing. -/
theorem formatLoop_of_ge (args : ℕ → UInt32) (strAt : UInt32 → List Char) (fmt : List Char)
    (ap : ℕ) {i : ℕ} (hi : 63 ≤ i) (b : LineBuf) : formatLoop args strAt fmt ap i b = (b, i) := by
  cases fmt with
  | nil => rfl
  | cons c fmt => rw [formatLoop_cons, if_pos (.inr hi)]

/-- **The format loop writes inside `buf`**, from a position of at most `63`, and stops at a
position of at most `64`. -/
theorem formatLoop_bounds (args : ℕ → UInt32) (strAt : UInt32 → List Char) (fmt : List Char)
    (ap i : ℕ) (b : LineBuf) (hi : i ≤ 63) :
    (formatLoop args strAt fmt ap i b).2 ≤ 64 ∧
      b.WritesBelow (formatLoop args strAt fmt ap i b).1 64 := by
  fun_induction formatLoop args strAt fmt ap i b with
  | case1 | case2 | case4 | case5 => exact ⟨by omega, .refl _ _⟩
  | case3 c fmt ap i b hgo hne ih =>
    -- a literal at `i < 63`
    obtain ⟨hle, hw⟩ := ih (by omega)
    exact ⟨hle, ((LineBuf.WritesBelow.refl b _).write c (by omega)).trans hw⟩
  | case6 c ap i b₀ hgo hpct fmt b j hcall hd ih =>
    have h := snprintfInt_bounds b₀ i (show (0 : ℤ) < 64 - i by omega) (asInt (args ap))
    rw [hcall] at h
    obtain ⟨hj, hw⟩ := h
    obtain ⟨hle, hw'⟩ := ih (by omega)
    exact ⟨hle, (hw.mono (by omega)).trans hw'⟩
  | case7 c ap i b₀ hgo hpct fmt b j hcall hd ih =>
    have h := snprintfHex_bounds b₀ i (show (0 : ℤ) < 64 - i by omega) (args ap)
    rw [hcall] at h
    obtain ⟨hj, hw⟩ := h
    obtain ⟨hle, hw'⟩ := ih (by omega)
    exact ⟨hle, (hw.mono (by omega)).trans hw'⟩
  | case8 c ap i b₀ hgo hpct fmt b j hcall hd ih =>
    have h := copyStr_bounds (if args ap = 0 then nullStr else strAt (args ap)) b₀ i hi
    rw [hcall] at h
    obtain ⟨hj, hw⟩ := h
    obtain ⟨hle, hw'⟩ := ih hj
    exact ⟨hle, (hw.mono (by omega)).trans hw'⟩
  | case9 c ap i b hgo hpct fmt hd ih =>
    obtain ⟨hle, hw⟩ := ih (by omega)
    exact ⟨hle, ((LineBuf.WritesBelow.refl b _).write '%' (by omega)).trans hw⟩
  | case10 c ap i b hgo hpct d fmt hd hnd hnx hns hnp ih =>
    -- an unknown conversion: `buf[i]` and `buf[i + 1]`, with only `i < 63` checked
    have hw : b.WritesBelow ((b.write i '%').write (i + 1) d) 64 :=
      ((LineBuf.WritesBelow.refl b _).write '%' (by omega)).write d (by omega)
    by_cases h62 : i + 2 ≤ 63
    · obtain ⟨hle, hw'⟩ := ih h62
      exact ⟨hle, hw.trans hw'⟩
    · rw [formatLoop_of_ge args strAt fmt ap (by omega)]
      exact ⟨by omega, hw⟩

/-- **Every write of a line is below `64`, or at `64`**: the loop writes inside `buf`, and the
terminator goes where the loop stopped. -/
theorem formatLine_written_le (stack : ℕ → Char) (fmt : List Char) (args : ℕ → UInt32)
    (strAt : UInt32 → List Char) : ∀ k ∈ (formatLine stack fmt args strAt).written, k ≤ 64 := by
  obtain ⟨hle, hw⟩ := formatLoop_bounds args strAt fmt 0 0 ⟨stack, []⟩ (by omega)
  intro k hk
  rw [formatLine, LineBuf.write_written, List.mem_cons] at hk
  rcases hk with rfl | hk
  · exact hle
  · rcases hw k hk with hnil | hlt
    · exact absurd hnil List.not_mem_nil
    · exact hlt.le

/-! ## Reaching position `64` -/

/-- A literal character before position `63` is copied to `buf[i]`. -/
theorem formatLoop_literal (args : ℕ → UInt32) (strAt : UInt32 → List Char) {c : Char}
    (hnul : c ≠ '\x00') (hpct : c ≠ '%') (fmt : List Char) (ap : ℕ) {i : ℕ} (hi : i < 63)
    (b : LineBuf) :
    formatLoop args strAt (c :: fmt) ap i b = formatLoop args strAt fmt ap (i + 1) (b.write i c) := by
  rw [formatLoop_cons, if_neg (not_or.mpr ⟨hnul, by omega⟩), if_pos hpct]

/-- An unknown conversion before position `63` writes `%` and its character, with no bound
checked for the second. -/
theorem formatLoop_unknown (args : ℕ → UInt32) (strAt : UInt32 → List Char) {d : Char}
    (hd : d ∉ ['\x00', 'd', 'x', 's', '%']) (fmt : List Char) (ap : ℕ) {i : ℕ} (hi : i < 63)
    (b : LineBuf) :
    formatLoop args strAt ('%' :: d :: fmt) ap i b =
      formatLoop args strAt fmt ap (i + 2) ((b.write i '%').write (i + 1) d) := by
  obtain ⟨hnul, hd', hx, hs, hpct⟩ := not_mem_conversions_iff.mp hd
  rw [formatLoop_cons, if_neg (not_or.mpr ⟨by decide, by omega⟩), if_neg (by decide)]
  dsimp only
  rw [if_neg hnul]
  -- the match on the conversion character falls through to its default branch
  split
  · exact absurd rfl hd'
  · exact absurd rfl hx
  · exact absurd rfl hs
  · exact absurd rfl hpct
  · rfl

/-- A run of literal characters advances the loop by its length, as long as it ends by `63`. -/
theorem formatLoop_literals (args : ℕ → UInt32) (strAt : UInt32 → List Char) (rest : List Char)
    (ap : ℕ) : ∀ (lit : List Char) (i : ℕ) (b : LineBuf), i + lit.length ≤ 63 →
      (∀ c ∈ lit, c ≠ '\x00' ∧ c ≠ '%') →
      ∃ b', formatLoop args strAt (lit ++ rest) ap i b =
        formatLoop args strAt rest ap (i + lit.length) b'
  | [], i, b, _, _ => ⟨b, rfl⟩
  | c :: lit, i, b, hlen, hlit => by
    rw [List.length_cons] at hlen
    obtain ⟨hnul, hpct⟩ := hlit c List.mem_cons_self
    obtain ⟨b', hb'⟩ := formatLoop_literals args strAt rest ap lit (i + 1) (b.write i c)
      (by omega) fun c' hc' ↦ hlit c' (List.mem_cons_of_mem c hc')
    refine ⟨b', ?_⟩
    rw [List.cons_append, formatLoop_literal args strAt hnul hpct _ ap (by omega), hb',
      List.length_cons, Nat.add_assoc, Nat.add_comm 1]

/-- **A line with an unknown conversion at position `62` writes `buf[64]`.** Sixty-two literal
characters bring the loop to `i = 62`, the conversion writes `buf[62]` and `buf[63]` and leaves
`i = 64`, and the terminator is written there. -/
theorem formatLine_writes_64 (stack : ℕ → Char) (args : ℕ → UInt32)
    (strAt : UInt32 → List Char) {lit : List Char} (hlen : lit.length = 62)
    (hlit : ∀ c ∈ lit, c ≠ '\x00' ∧ c ≠ '%') {d : Char} (hd : d ∉ ['\x00', 'd', 'x', 's', '%'])
    (rest : List Char) : 64 ∈ (formatLine stack (lit ++ '%' :: d :: rest) args strAt).written := by
  obtain ⟨b', hb'⟩ := formatLoop_literals args strAt ('%' :: d :: rest) 0 lit 0 ⟨stack, []⟩
    (by omega) hlit
  rw [formatLine]
  dsimp only
  -- the conversion at `62` leaves the loop at `64`, where it stops
  rw [hb', Nat.zero_add, hlen, formatLoop_unknown args strAt hd rest 0 (by omega),
    formatLoop_of_ge args strAt rest 0 (by omega), LineBuf.write_written]
  exact List.mem_cons_self

/-- **The format loop can write one byte past `buf`.** Every write of a line is at an offset of
at most `64`; the offset `64`, one past the end of `char buf[64]`, is written for the format of
sixty-two letters followed by the unknown conversion %q. -/
theorem format_writes_past_buf :
    (∀ stack fmt args strAt, ∀ k ∈ (formatLine stack fmt args strAt).written, k ≤ 64) ∧
      ∀ stack args strAt,
        64 ∈ (formatLine stack (List.replicate 62 'a' ++ '%' :: 'q' :: []) args strAt).written :=
  ⟨formatLine_written_le, fun stack args strAt ↦
    formatLine_writes_64 stack args strAt List.length_replicate
      (fun c hc ↦ by rw [List.eq_of_mem_replicate hc]; decide) (by decide) []⟩

end Klog

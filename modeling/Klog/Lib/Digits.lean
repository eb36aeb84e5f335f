import Mathlib

/-!
# Digit loops

The loop that prints a positive number in base `b` produces its digits least significant
first, `d := n % b; n := n / b` while `n > 0`, into a buffer with room for a bounded number of
digits. When the room suffices it produces `Nat.toDigits b n` reversed, which is what lets a
printer that pops the buffer from the top agree with `Nat.toDigits`.
-/

namespace DigitLoop

/-- `while (n > 0 && room > 0) { emit(digit(n % b)); n /= b; }`, least significant digit first. -/
def lsbDigits (b : ℕ) : ℕ → ℕ → List Char
  | _, 0 => []
  | n, room + 1 => if 0 < n then Nat.digitChar (n % b) :: lsbDigits b (n / b) room else []

@[simp] theorem lsbDigits_zero_left (b room : ℕ) : lsbDigits b 0 room = [] := by
  cases room <;> simp [lsbDigits]

/-- **The digit loop prints `Nat.toDigits`**, least significant digit first, when the number has
at most `room` digits. -/
theorem lsbDigits_eq_reverse_toDigits {b : ℕ} (hb : 1 < b) :
    ∀ {n room : ℕ}, 0 < n → n < b ^ room → lsbDigits b n room = (Nat.toDigits b n).reverse := by
  intro n room
  induction room generalizing n with
  | zero => intro hn hlt; simp at hlt; omega
  | succ room ih =>
    intro hn hlt
    rw [lsbDigits, if_pos hn]
    rcases Nat.lt_or_ge n b with hsmall | hbig
    · rw [Nat.toDigits_of_lt_base hsmall, Nat.div_eq_of_lt hsmall, lsbDigits_zero_left,
        Nat.mod_eq_of_lt hsmall]
      rfl
    · have hq : 0 < n / b := Nat.div_pos hbig (by omega)
      have hqlt : n / b < b ^ room := by
        rw [Nat.div_lt_iff_lt_mul (by omega), ← pow_succ]
        exact hlt
      rw [ih hq hqlt, Nat.toDigits_of_base_le hb hbig, List.reverse_append]
      rfl

theorem length_toDigits_le {b n room : ℕ} (hb : 1 < b) (hroom : 0 < room) (h : n < b ^ room) :
    (Nat.toDigits b n).length ≤ room :=
  (Nat.length_toDigits_le_iff hb hroom).mpr h

/-- Every character the digit loop produces is some `Nat.digitChar`. -/
theorem exists_digitChar_of_mem_lsbDigits {b : ℕ} {c : Char} :
    ∀ {n room : ℕ}, c ∈ lsbDigits b n room → ∃ d, c = Nat.digitChar d
  | _, 0, h => absurd h List.not_mem_nil
  | n, room + 1, h => by
    rw [lsbDigits] at h
    split_ifs at h
    · rcases List.mem_cons.mp h with rfl | h
      · exact ⟨_, rfl⟩
      · exact exists_digitChar_of_mem_lsbDigits h
    · exact absurd h List.not_mem_nil

/-- Every character of `Nat.toDigits` is some `Nat.digitChar`. -/
theorem exists_digitChar_of_mem_toDigits {b n : ℕ} (hb : 1 < b) {c : Char}
    (hc : c ∈ Nat.toDigits b n) : ∃ d, c = Nat.digitChar d := by
  rcases Nat.eq_zero_or_pos n with rfl | hn
  · rw [Nat.toDigits_zero, List.mem_singleton] at hc
    exact ⟨0, hc⟩
  · rw [← List.mem_reverse, ← lsbDigits_eq_reverse_toDigits hb hn (Nat.lt_pow_self hb)] at hc
    exact exists_digitChar_of_mem_lsbDigits hc

end DigitLoop

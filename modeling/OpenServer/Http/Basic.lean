/-!
This module contains the byte strings of the server. A `std::string` is its bytes and a `QString` is
its UTF-8 bytes, so that `toStdString` is the identity.
-/

abbrev Bytes := List UInt8

abbrev QString := Bytes

def ascii (s : String) : Bytes :=
  s.toList.map (fun c => UInt8.ofNat c.toNat)

-- `std::to_string`
def toDecimal (n : Nat) : Bytes :=
  (Nat.toDigits 10 n).map (fun c => UInt8.ofNat c.toNat)

-- The conversion of a `size_t` to an `int` of 32 bits.
def intOfSize (n : Nat) : Int :=
  (n : Int).bmod 4294967296

def npos : Nat := 18446744073709551615

theorem intOfSize_of_lt (h : n % 4294967296 < 2147483648)
    : intOfSize n = (n % 4294967296 : Nat) := by
  have : intOfSize n = (n : Int) % 4294967296 := by
    apply Int.bmod_eq_emod_of_lt
    omega
  omega

theorem intOfSize_neg (h : 2147483648 ≤ n % 4294967296) : intOfSize n < 0 := by
  have : intOfSize n = (n : Int) % 4294967296 - 4294967296 := by
    apply Int.bmod_neg
    omega
  omega

theorem intOfSize_npos : intOfSize npos = -1 := by
  decide

theorem ascii_space : ascii " " = [32] := by
  rfl

theorem ascii_escapedSpace : ascii "%20" = [37, 50, 48] := by
  rfl

theorem notMem_of_all {s set : Bytes} (h : s.all (fun a => decide (a ∉ set)))
    : ∀ a ∈ s, a ∉ set := by
  intro a ha
  exact of_decide_eq_true (List.all_eq_true.mp h a ha)

theorem toNat_of_mem_toDigits {c : Char} (h : c ∈ Nat.toDigits 10 n) : 48 ≤ c.toNat ∧ c.toNat ≤ 57 := by
  have hdigit := Nat.isDigit_of_mem_toDigits (by omega) (by omega) h
  simp only [Char.isDigit, Bool.and_eq_true, decide_eq_true_eq] at hdigit
  exact hdigit

theorem carriageReturn_notMem_toDecimal : 13 ∉ toDecimal n := by
  intro h
  simp only [toDecimal, List.mem_map] at h
  obtain ⟨c, hc, heq⟩ := h
  have hrange := toNat_of_mem_toDigits hc
  have := congrArg UInt8.toNat heq
  simp at this
  omega

theorem toDecimal_chars (n : Nat)
    : (toDecimal n).map (fun b => Char.ofNat b.toNat) = Nat.toDigits 10 n := by
  rw [toDecimal, List.map_map]
  conv => rhs; rw [← List.map_id (Nat.toDigits 10 n)]
  apply List.map_congr_left
  intro c hc
  have hrange := toNat_of_mem_toDigits hc
  have : c.toNat % 256 = c.toNat := by omega
  simp [this]

theorem toDecimal_inj : toDecimal n = toDecimal m ↔ n = m := by
  constructor
  . intro h
    have := congrArg (List.map (fun b => Char.ofNat b.toNat)) h
    rw [toDecimal_chars, toDecimal_chars] at this
    rw [← Nat.ofDigitChars_ten_toDigits (n := n), this, Nat.ofDigitChars_ten_toDigits]
  . rintro rfl
    rfl

/-!
# Characters as UTF-16 units

A character is one unit, or two if it lies outside the basic plane. The two are surrogates, which no
character has for its only unit. Units that no characters have, such as a surrogate without its
partner, are not looked at.
-/

set_option autoImplicit false

namespace Cqasm.Utf16

/-- The units of a character, as numbers. -/
def units (c : Char) : List Nat :=
  if c.toNat < 0x10000 then [c.toNat]
  else [0xd800 + (c.toNat - 0x10000) / 0x400, 0xdc00 + (c.toNat - 0x10000) % 0x400]

/-- The units of a text. -/
def encode (text : List Char) : List Nat :=
  text.flatMap units

variable {c : Char}

theorem units_of_lt (h : c.toNat < 0x10000) : units c = [c.toNat] :=
  if_pos h

theorem encode_cons (c : Char) (text : List Char) :
    encode (c :: text) = units c ++ encode text :=
  List.flatMap_cons

theorem encode_append (left right : List Char) :
    encode (left ++ right) = encode left ++ encode right :=
  List.flatMap_append

/-- A character is a unit of its own, or begins with a surrogate and goes on with another. -/
theorem units_cases (c : Char) :
    units c = [c.toNat] ∨ ∃ high low, units c = [high, low] ∧ 0xd800 ≤ high ∧ 0xd800 ≤ low := by
  unfold units
  split
  · exact .inl rfl
  · exact .inr ⟨_, _, rfl, by omega, by omega⟩

/-- A character below the surrogates is a unit of no other character. -/
theorem ne_of_mem_units {d : Char} (hd : d.toNat < 0xd800) (hne : c ≠ d) {unit : Nat}
    (h : unit ∈ units c) : unit ≠ d.toNat := by
  rcases units_cases c with hunits | ⟨high, low, hunits, hhigh, hlow⟩
  · rw [hunits, List.mem_singleton] at h
    rintro rfl
    exact hne (Char.toNat_inj.1 h.symm)
  · rw [hunits, List.mem_cons, List.mem_singleton] at h
    omega

end Cqasm.Utf16

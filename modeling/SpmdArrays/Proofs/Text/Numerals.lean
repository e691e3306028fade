/-!
Decimal numerals at the end of names. A number is read back from its numeral, so two
names under one stem are the same only for one number. Under two stems they are the same
exactly when one stem goes on with digits that the other numeral starts with.
-/

namespace SpmdArrays.Text

theorem toList_toString (n : Nat) : (toString n).toList = Nat.toDigits 10 n := by
  rw [Nat.toString_eq_ofList_toDigits, String.toList_ofList]

theorem isDigit_of_mem_toString {n : Nat} {c : Char} (h : c ∈ (toString n).toList) :
    c.isDigit = true := by
  rw [toList_toString] at h
  exact Nat.isDigit_of_mem_toDigits (by decide) (by decide) h

theorem ofDigitChars_toString (n : Nat) : Nat.ofDigitChars 10 (toString n).toList 0 = n := by
  rw [toList_toString, Nat.ofDigitChars_ten_toDigits]

theorem toString_inj {m n : Nat} (h : toString m = toString n) : m = n := by
  rw [← ofDigitChars_toString m, h, ofDigitChars_toString]

theorem le_of_toString_eq_append {m n : Nat} {front : List Char}
    (h : (toString m).toList = front ++ (toString n).toList) : n ≤ m := by
  have hm := ofDigitChars_toString m
  rw [h, Nat.ofDigitChars_append, Nat.ofDigitChars_eq_ofDigitChars_zero,
    ofDigitChars_toString] at hm
  omega

/-- The smaller number stands behind the longer stem, and the digits by which that stem
is longer start the other numeral. -/
theorem append_toString_eq_iff {stem stem' : String} {m n : Nat} (hlt : m < n) :
    stem ++ toString m = stem' ++ toString n ↔
      ∃ digits, stem = stem' ++ digits ∧ digits ++ toString m = toString n := by
  constructor
  · intro h
    have hlist : stem.toList ++ (toString m).toList = stem'.toList ++ (toString n).toList := by
      simpa using congrArg String.toList h
    rcases List.append_eq_append_iff.mp hlist with
      ⟨digits, hstem, hnumeral⟩ | ⟨digits, hstem, hnumeral⟩
    · have hle := le_of_toString_eq_append hnumeral
      omega
    · refine ⟨String.ofList digits, String.toList_inj.mp ?_, String.toList_inj.mp ?_⟩
      · rw [hstem, String.toList_append, String.toList_ofList]
      · rw [hnumeral, String.toList_append, String.toList_ofList]
  · rintro ⟨digits, rfl, hnumeral⟩
    rw [String.append_assoc, hnumeral]

theorem getLast?_append_toString (stem : String) (n : Nat) :
    ∃ c, (stem ++ toString n).toList.getLast? = some c ∧ c.isDigit = true := by
  have hne : (toString n).toList ≠ [] := by
    rw [toList_toString]
    exact List.ne_nil_of_length_pos Nat.length_toDigits_pos
  refine ⟨(toString n).toList.getLast hne, ?_, isDigit_of_mem_toString (List.getLast_mem hne)⟩
  rw [String.toList_append, List.getLast?_append, List.getLast?_eq_some_getLast hne, Option.some_or]

end SpmdArrays.Text

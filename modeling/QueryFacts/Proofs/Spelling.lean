import Mathlib.Data.List.Basic
import QueryFacts.Lexeme

/-! Words in any case of their letters. ASCII letters alone are enough to tell what a word is, so that
all of its spellings have the same upper case and the same normal form. -/

namespace QueryFacts

/-- The word, which is given in upper case, with its ASCII letters in any case. -/
def IsSpelling (word : String) (letters : List Char) : Prop := letters.map Char.toUpper = word.toList

instance (word : String) (letters : List Char) : Decidable (IsSpelling word letters) :=
  inferInstanceAs (Decidable (letters.map Char.toUpper = word.toList))

end QueryFacts

namespace QueryFacts.Proofs.Spelling
open Text

variable {word : String} {letters : List Char}

private theorem isUpper_bounds {c : Char} (upper : c.isUpper = true) : 65 ≤ c.toNat ∧ c.toNat ≤ 90 := by
  have bounds : 65 ≤ c.val ∧ c.val ≤ 90 := of_decide_eq_true upper
  simpa [UInt32.le_iff_toNat_le] using bounds

private theorem letter_bounds {c : Char} (upper : c.toUpper.isUpper = true) : 65 ≤ c.toNat ∧ c.toNat ≤ 122 := by
  by_cases lower : 97 ≤ c.val ∧ c.val ≤ 122
  · have bounds : 97 ≤ c.toNat ∧ c.toNat ≤ 122 := by simpa [UInt32.le_iff_toNat_le] using lower
    omega
  · have same : c.toUpper = c := dif_neg lower
    have bounds := isUpper_bounds (same ▸ upper)
    omega

private theorem bounds_of_spelling (upper : word.toList.all (·.isUpper) = true) (spelled : IsSpelling word letters) :
    ∀ c ∈ letters, 65 ≤ c.toNat ∧ c.toNat ≤ 122 := by
  intro c member
  exact letter_bounds (List.all_eq_true.mp upper _ (spelled ▸ List.mem_map_of_mem member))

private theorem flatMap_of_spelling (upper : word.toList.all (·.isUpper) = true) (spelled : IsSpelling word letters) :
    String.ofList (letters.flatMap upperChar) = word := by
  have each : letters.flatMap upperChar = letters.map Char.toUpper := by
    rw [← List.flatMap_pure_eq_map]
    apply List.flatMap_congr
    intro c member
    have bounds := bounds_of_spelling upper spelled c member
    rw [upperChar, if_pos (by omega)]
    rfl
  rw [each, spelled, String.ofList_toList]

theorem upper_of_spelling (upper : word.toList.all (·.isUpper) = true) (spelled : IsSpelling word letters) :
    Text.upper (String.ofList letters) = word := by
  rw [Text.upper, String.toList_ofList, flatMap_of_spelling upper spelled]

/-- Of ASCII letters, the normal form is the upper case. -/
theorem normalForm_of_spelling {text : String} (upper : word.toList.all (·.isUpper) = true)
    (spelled : IsSpelling word text.toList) :
    Keyword.normalForm text = word := by
  have solid : text.toList.filter (!isBlank ·) = text.toList := by
    apply List.filter_eq_self.mpr
    intro c member
    have bounds := bounds_of_spelling upper spelled c member
    simp only [isBlank, Bool.not_eq_true', Bool.or_eq_false_iff, Bool.and_eq_false_iff, decide_eq_false_iff_not,
      beq_eq_false_iff_ne]
    omega
  rw [Keyword.normalForm, solid, flatMap_of_spelling upper spelled]

theorem spelling_of_isWord {lexeme : Lexeme} (reads : lexeme.isWord word = true) :
    IsSpelling word lexeme.value.toList :=
  beq_iff_eq.mp ((Bool.and_eq_true _ _).mp reads).2

end QueryFacts.Proofs.Spelling

/-! Dotted names: the last part of a name, and the qualifier in front of it. -/

namespace QueryFacts.Text

def qualify (qualifier name : String) : String := qualifier ++ "." ++ name

theorem qualify_left_inj {first second name : String} (same : qualify first name = qualify second name) :
    first = second := by simpa [qualify] using same

/-- The parts of a text before and after its last dot. -/
def splitAtLastDot (text : List Char) : Option (List Char × List Char) :=
  let last := (text.reverse.takeWhile (· ≠ '.')).reverse
  match text.reverse.dropWhile (· ≠ '.') with
  | [] => none
  | _ :: qualifier => some (qualifier.reverse, last)

/-- The qualifier and the last part of a name with a dot in it. -/
def splitQualified? (name : String) : Option (String × String) :=
  (splitAtLastDot name.toList).map fun (qualifier, last) => (String.ofList qualifier, String.ofList last)

def lastPart (name : String) : String := ((splitQualified? name).map (·.2)).getD name

theorem splitAtLastDot_eq {text qualifier last : List Char} (split : splitAtLastDot text = some (qualifier, last)) :
    text = qualifier ++ '.' :: last ∧ '.' ∉ last := by
  unfold splitAtLastDot at split
  have whole := List.takeWhile_append_dropWhile (p := (· ≠ '.')) (l := text.reverse)
  split at split
  next => cases split
  next c rest tail =>
    obtain ⟨rfl, rfl⟩ := Prod.mk.inj (Option.some.inj split)
    have dot : c = '.' := by
      have head := List.head?_dropWhile_not (· ≠ '.') text.reverse
      rw [tail] at head
      simpa using head
    rw [tail, dot] at whole
    refine ⟨?_, fun member => ?_⟩
    · have := congrArg List.reverse whole
      simpa using this.symm
    · have := List.all_takeWhile (p := (· ≠ '.')) (l := text.reverse)
      rw [List.all_eq_true] at this
      simpa using this '.' (List.mem_reverse.1 member)

theorem splitAtLastDot_eq_none {text : List Char} (plain : '.' ∉ text) : splitAtLastDot text = none := by
  have all : ∀ letters : List Char, '.' ∉ letters → letters.dropWhile (· ≠ '.') = [] := by
    intro letters absent
    induction letters with
    | nil => simp
    | cons c rest ih =>
      simp only [List.mem_cons, not_or] at absent
      simpa [Ne.symm absent.1] using ih absent.2
  simp only [splitAtLastDot, all text.reverse (by simpa using plain)]

theorem splitAtLastDot_append {last : List Char} (bare : '.' ∉ last) (qualifier : List Char) :
    splitAtLastDot (qualifier ++ '.' :: last) = some (qualifier, last) := by
  have reversed : (qualifier ++ '.' :: last).reverse = last.reverse ++ '.' :: qualifier.reverse := by simp
  have clear : ∀ c ∈ last.reverse, decide (c ≠ '.') = true := by
    intro c member
    rw [List.mem_reverse] at member
    simp only [decide_eq_true_eq]
    rintro rfl
    exact bare member
  rw [splitAtLastDot, reversed, List.takeWhile_append_of_pos clear, List.dropWhile_append_of_pos clear]
  simp

theorem splitQualified?_qualify {name : String} (bare : '.' ∉ name.toList) (qualifier : String) :
    splitQualified? (qualify qualifier name) = some (qualifier, name) := by
  have whole : (qualify qualifier name).toList = qualifier.toList ++ '.' :: name.toList := by simp [qualify]
  simp [splitQualified?, whole, splitAtLastDot_append bare]

/-- Splitting a name and qualifying its last part give the name back. -/
theorem qualify_of_split {name qualifier last : String} (split : splitQualified? name = some (qualifier, last)) :
    qualify qualifier last = name := by
  obtain ⟨⟨before, after⟩, found, same⟩ := Option.map_eq_some_iff.1 split
  obtain ⟨rfl, rfl⟩ := Prod.mk.inj same
  have whole := (splitAtLastDot_eq found).1
  apply String.toList_inj.1
  simp [qualify, whole]

theorem splitQualified?_last {name qualifier last : String} (split : splitQualified? name = some (qualifier, last)) :
    splitQualified? last = none := by
  obtain ⟨⟨before, after⟩, found, same⟩ := Option.map_eq_some_iff.1 split
  obtain ⟨rfl, rfl⟩ := Prod.mk.inj same
  simp [splitQualified?, splitAtLastDot_eq_none (splitAtLastDot_eq found).2]

end QueryFacts.Text

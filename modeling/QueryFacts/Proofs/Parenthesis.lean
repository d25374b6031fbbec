import QueryFacts.Token

/-! Which parentheses of a text belong together, said by counting and without a
stack. Heights are integers, so that the facts about pairs are linear arithmetic. -/

namespace QueryFacts.Proofs.Parenthesis

/-- What the tokens of a text do to its nesting; `none` for a token that is no parenthesis. -/
abbrev Sides := List (Option ParenSide)

/-- How many more parentheses open than close. -/
def height (sides : Sides) : Int := sides.count (some .opening) - sides.count (some .closing)

structure Balanced (sides : Sides) : Prop where
  before : ∀ count, 0 ≤ height (sides.take count)
  whole : height sides = 0

/-- The parentheses at two places belong together: the text between them balances. -/
structure Pair (sides : Sides) (first last : Nat) : Prop where
  ordered : first < last
  opening : sides[first]? = some (some .opening)
  closing : sides[last]? = some (some .closing)
  inner : Balanced ((sides.take last).drop (first + 1))

def heightAt (sides : Sides) (place : Nat) : Int := height (sides.take place)

def rise : Option ParenSide → Int
  | none => 0
  | some .opening => 1
  | some .closing => -1

@[simp] theorem height_nil : height [] = 0 := rfl

theorem height_append (first rest : Sides) : height (first ++ rest) = height first + height rest := by
  simp only [height, List.count_append]
  omega

theorem height_singleton (side : Option ParenSide) : height [side] = rise side := by
  cases side with
  | none => rfl
  | some side => cases side <;> rfl

@[simp] theorem heightAt_zero (sides : Sides) : heightAt sides 0 = 0 := rfl

theorem heightAt_succ {sides : Sides} {place : Nat} {side : Option ParenSide} (found : sides[place]? = some side) :
    heightAt sides (place + 1) = heightAt sides place + rise side := by
  rw [heightAt, List.take_add_one, height_append, found, Option.toList_some, height_singleton]
  rfl

theorem heightAt_length (sides : Sides) : heightAt sides sides.length = height sides := by
  rw [heightAt, List.take_length]

theorem heightAt_le_length (sides : Sides) (place : Nat) : heightAt sides place ≤ sides.length := by
  have opened : (sides.take place).count (some .opening) ≤ (sides.take place).length := List.count_le_length
  have early := List.length_take_le' place sides
  rw [heightAt, height]
  omega

theorem height_between (sides : Sides) {first last : Nat} (ordered : first ≤ last) :
    height ((sides.take last).drop first) = heightAt sides last - heightAt sides first := by
  have parts := congrArg height (List.take_append_drop first (sides.take last))
  rw [height_append, List.take_take, Nat.min_eq_left ordered] at parts
  simp only [heightAt]
  omega

/-- A part of a text balances when no height in it is below that at its start and the
last is the same. -/
theorem balanced_between_iff (sides : Sides) {first last : Nat} (ordered : first ≤ last) :
    Balanced ((sides.take last).drop first) ↔
      (∀ place, first ≤ place → place ≤ last → heightAt sides first ≤ heightAt sides place) ∧
        heightAt sides last = heightAt sides first := by
  have within (count : Nat) : height (((sides.take last).drop first).take count) =
      heightAt sides (min (first + count) last) - heightAt sides first := by
    rw [List.take_drop, List.take_take]
    exact height_between sides (by omega)
  constructor
  · intro balanced
    refine ⟨?_, ?_⟩
    · intro place lower upper
      have nonneg := balanced.before (place - first)
      rw [within, show min (first + (place - first)) last = place by omega] at nonneg
      omega
    · have whole := balanced.whole
      rw [height_between sides ordered] at whole
      omega
  · intro ⟨above, same⟩
    refine ⟨?_, ?_⟩
    · intro count
      have bound := above (min (first + count) last) (by omega) (by omega)
      rw [within]
      omega
    · rw [height_between sides ordered]
      omega

theorem balanced_take_iff (sides : Sides) (last : Nat) :
    Balanced (sides.take last) ↔
      (∀ place, place ≤ last → 0 ≤ heightAt sides place) ∧ heightAt sides last = 0 := by
  simpa using balanced_between_iff sides (Nat.zero_le last)

theorem balanced_inside_iff (sides : Sides) {first last : Nat} (ordered : first < last) :
    Balanced ((sides.take last).drop (first + 1)) ↔
      (∀ place, first < place → place ≤ last → heightAt sides (first + 1) ≤ heightAt sides place) ∧
        heightAt sides last = heightAt sides (first + 1) :=
  balanced_between_iff sides ordered

/-- The parentheses around a part that balances are a pair. -/
theorem pair_around (front : Sides) {inner : Sides} (balanced : Balanced inner) (rest : Sides) :
    Pair (front ++ some .opening :: (inner ++ some .closing :: rest)) front.length
        (front.length + inner.length + 1) := by
  have parts : front ++ some ParenSide.opening :: (inner ++ some ParenSide.closing :: rest) =
      (front ++ [some ParenSide.opening]) ++ inner ++ (some ParenSide.closing :: rest) := by simp
  have cut : ((front ++ [some ParenSide.opening]) ++ inner).length = front.length + inner.length + 1 := by
    simp only [List.length_append, List.length_singleton]
    omega
  refine ⟨by omega, ?_, ?_, ?_⟩
  · rw [List.getElem?_append_right (Nat.le_refl _), Nat.sub_self]
    rfl
  · rw [parts, List.getElem?_append_right (Nat.le_of_eq cut), cut, Nat.sub_self]
    rfl
  · rw [parts, List.take_left' cut, List.drop_left' (by simp)]
    exact balanced

namespace Pair
variable {sides : Sides} {first last : Nat}

theorem heights (pair : Pair sides first last) :
    heightAt sides last = heightAt sides first + 1 ∧ heightAt sides (last + 1) = heightAt sides first ∧
      ∀ place, first < place → place ≤ last → heightAt sides first < heightAt sides place := by
  obtain ⟨above, same⟩ := (balanced_inside_iff sides pair.ordered).mp pair.inner
  have up := heightAt_succ pair.opening
  have down := heightAt_succ pair.closing
  simp only [rise] at up down
  refine ⟨by omega, by omega, ?_⟩
  intro place lower upper
  have bound := above place lower upper
  omega

theorem nested (outer : Pair sides first last) {inside close : Nat} (inner : Pair sides inside close)
    (after : first < inside) (before : inside < last) : close < last := by
  obtain ⟨top, back, above⟩ := outer.heights
  obtain ⟨innerTop, innerBack, innerAbove⟩ := inner.heights
  have lower := above inside after (by omega)
  by_cases inRange : close < last
  · exact inRange
  · by_cases same : close = last
    · subst close; omega
    · have bound := innerAbove (last + 1) (by omega) (by omega)
      omega

theorem last_unique (pair : Pair sides first last) {other : Nat} (also : Pair sides first other) : last = other := by
  obtain ⟨top, back, above⟩ := pair.heights
  obtain ⟨otherTop, otherBack, otherAbove⟩ := also.heights
  rcases Nat.lt_trichotomy last other with earlier | same | later
  · have bound := otherAbove (last + 1) (by have := pair.ordered; omega) earlier
    omega
  · exact same
  · have bound := above (other + 1) (by have := also.ordered; omega) later
    omega

theorem first_unique (pair : Pair sides first last) {other : Nat} (also : Pair sides other last) : first = other := by
  rcases Nat.lt_trichotomy first other with earlier | same | later
  · exact absurd (pair.nested also earlier also.ordered) (Nat.lt_irrefl _)
  · exact same
  · exact absurd (also.nested pair later pair.ordered) (Nat.lt_irrefl _)

theorem nested_opening (outer : Pair sides first last) {inside close : Nat} (inner : Pair sides inside close)
    (after : first < close) (before : close < last) : first < inside := by
  have ordered := inner.ordered
  rcases Nat.lt_trichotomy first inside with later | same | earlier
  · exact later
  · subst inside
    have := outer.last_unique inner
    omega
  · have := inner.nested outer earlier after
    omega

theorem between_iff {index other : Nat} (inside : first + other < last) :
    Pair ((sides.take last).drop first) index other ↔ Pair sides (first + index) (first + other) := by
  have side {place : Nat} (bound : first + place < last) :
      ((sides.take last).drop first)[place]? = sides[first + place]? := by
    rw [List.getElem?_drop, List.getElem?_take_of_lt bound]
  have between : (((sides.take last).drop first).take other).drop (index + 1) =
      (sides.take (first + other)).drop (first + index + 1) := by
    rw [List.take_drop, List.take_take, List.drop_drop, Nat.min_eq_left (Nat.le_of_lt inside), Nat.add_assoc]
  constructor
  · intro pair
    have ordered := pair.ordered
    have opening := pair.opening
    have closing := pair.closing
    rw [side (by omega)] at opening closing
    exact ⟨by omega, opening, closing, between ▸ pair.inner⟩
  · intro pair
    have ordered := pair.ordered
    have opening := pair.opening
    have closing := pair.closing
    rw [← side (by omega)] at opening closing
    exact ⟨by omega, opening, closing, between ▸ pair.inner⟩

theorem opening_ne_closing (pair : Pair sides first last) {other partner : Nat} (also : Pair sides other partner) :
    first ≠ partner := by
  rintro rfl
  have same := pair.opening.symm.trans also.closing
  simp at same

end Pair

/-- The parentheses that are open before a place, innermost first: what lies between
one and the next balances. -/
def Open (sides : Sides) (place : Nat) : List Nat → Prop
  | [] => Balanced (sides.take place)
  | first :: outer => first < place ∧ sides[first]? = some (some .opening) ∧
      Balanced ((sides.take place).drop (first + 1)) ∧ Open sides first outer

namespace Open
variable {sides : Sides} {place : Nat} {opened : List Nat}

theorem start (sides : Sides) : Open sides 0 [] := by
  refine ⟨?_, ?_⟩ <;> simp

theorem opens (stacked : Open sides place opened) (found : sides[place]? = some (some .opening)) :
    Open sides (place + 1) (place :: opened) := by
  refine ⟨Nat.lt_succ_self _, found, ?_, stacked⟩
  refine (balanced_between_iff sides (Nat.le_refl _)).mpr ⟨?_, rfl⟩
  intro other lower upper
  obtain rfl := Nat.le_antisymm lower upper
  exact Int.le_refl _

/-- The height of a place is the number of parentheses open before it. -/
theorem heightAt_eq (stacked : Open sides place opened) : heightAt sides place = opened.length := by
  induction opened generalizing place with
  | nil => exact stacked.whole
  | cons first outer ih =>
    obtain ⟨before, opening, balanced, rest⟩ := stacked
    have same := ((balanced_inside_iff sides before).mp balanced).2
    have up := heightAt_succ opening
    have outside := ih rest
    simp only [rise] at up
    simp only [List.length_cons]
    omega

theorem passes (stacked : Open sides place opened) (found : sides[place]? = some none) :
    Open sides (place + 1) opened := by
  have level := heightAt_succ found
  simp only [rise] at level
  cases opened with
  | nil =>
    obtain ⟨above, same⟩ := (balanced_take_iff sides place).mp stacked
    refine (balanced_take_iff sides (place + 1)).mpr ⟨?_, by omega⟩
    intro other upper
    by_cases last : other = place + 1
    · subst other; omega
    · exact above other (by omega)
  | cons first outer =>
    obtain ⟨before, opening, balanced, rest⟩ := stacked
    obtain ⟨above, same⟩ := (balanced_inside_iff sides before).mp balanced
    refine ⟨by omega, opening, ?_, rest⟩
    refine (balanced_inside_iff sides (by omega)).mpr ⟨?_, by omega⟩
    intro other lower upper
    by_cases last : other = place + 1
    · subst other; omega
    · exact above other lower (by omega)

theorem pair {first : Nat} {outer : List Nat} (stacked : Open sides place (first :: outer))
    (found : sides[place]? = some (some .closing)) : Pair sides first place :=
  ⟨stacked.1, stacked.2.1, found, stacked.2.2.1⟩

/-- After a closing parenthesis those outside the pair are open. -/
theorem closes {first : Nat} {outer : List Nat} (stacked : Open sides place (first :: outer))
    (found : sides[place]? = some (some .closing)) : Open sides (place + 1) outer := by
  obtain ⟨top, back, above⟩ := (stacked.pair found).heights
  obtain ⟨before, opening, balanced, rest⟩ := stacked
  cases outer with
  | nil =>
    obtain ⟨outside, same⟩ := (balanced_take_iff sides first).mp rest
    refine (balanced_take_iff sides (place + 1)).mpr ⟨?_, by omega⟩
    intro other upper
    by_cases early : other ≤ first
    · exact outside other early
    · by_cases last : other = place + 1
      · subst other; omega
      · have bound := above other (by omega) (by omega)
        omega
  | cons next outer =>
    obtain ⟨earlier, nextOpening, nextBalanced, rest⟩ := rest
    obtain ⟨outside, same⟩ := (balanced_inside_iff sides earlier).mp nextBalanced
    refine ⟨by omega, nextOpening, ?_, rest⟩
    refine (balanced_inside_iff sides (by omega)).mpr ⟨?_, by omega⟩
    intro other lower upper
    by_cases early : other ≤ first
    · exact outside other lower early
    · by_cases last : other = place + 1
      · subst other; omega
      · have bound := above other (by omega) (by omega)
        omega

theorem lt_place (stacked : Open sides place opened) {first : Nat} (member : first ∈ opened) : first < place := by
  induction opened generalizing place with
  | nil => cases member
  | cons head outer ih =>
    obtain ⟨before, -, -, rest⟩ := stacked
    rcases List.mem_cons.mp member with rfl | inside
    · exact before
    · exact Nat.lt_trans (ih rest inside) before

theorem decreasing (stacked : Open sides place opened) : opened.Pairwise (· > ·) := by
  induction opened generalizing place with
  | nil => exact List.Pairwise.nil
  | cons head outer ih =>
    exact List.pairwise_cons.mpr ⟨fun other member => lt_place stacked.2.2.2 member, ih stacked.2.2.2⟩

/-- What comes after an open parenthesis is higher than it, up to the place. -/
theorem above (stacked : Open sides place opened) {first : Nat} (member : first ∈ opened) :
    ∀ other, first < other → other ≤ place → heightAt sides first < heightAt sides other := by
  induction opened generalizing place with
  | nil => cases member
  | cons head outer ih =>
    obtain ⟨before, opening, balanced, rest⟩ := stacked
    obtain ⟨inside, -⟩ := (balanced_inside_iff sides before).mp balanced
    have up := heightAt_succ opening
    simp only [rise] at up
    intro other after upper
    rcases List.mem_cons.mp member with rfl | outside
    · have bound := inside other after upper
      omega
    · by_cases early : other ≤ head
      · exact ih rest outside other after early
      · have below := ih rest outside head (lt_place rest outside) (Nat.le_refl _)
        have bound := inside other (by omega) upper
        omega

/-- The partner of an open parenthesis is not before the place. -/
theorem unfinished (stacked : Open sides place opened) {first last : Nat} (member : first ∈ opened)
    (pair : Pair sides first last) : place ≤ last := by
  obtain ⟨-, back, -⟩ := pair.heights
  have ordered := pair.ordered
  rcases Nat.lt_or_ge last place with finished | later
  · have higher := stacked.above member (last + 1) (by omega) finished
    omega
  · exact later

/-- A pair that begins before a place and does not end before it is open there. -/
theorem mem_of_pair (stacked : Open sides place opened) {first last : Nat} (pair : Pair sides first last)
    (begun : first < place) (unfinished : place ≤ last) : first ∈ opened := by
  obtain ⟨top, back, above⟩ := pair.heights
  induction opened generalizing place with
  | nil =>
    obtain ⟨outside, same⟩ := (balanced_take_iff sides place).mp stacked
    have lower := outside first (by omega)
    have upper := above place begun unfinished
    omega
  | cons head outer ih =>
    obtain ⟨before, opening, balanced, rest⟩ := stacked
    obtain ⟨inside, same⟩ := (balanced_inside_iff sides before).mp balanced
    rcases Nat.lt_trichotomy first head with outerMost | rfl | innerMost
    · exact List.mem_cons_of_mem _ (ih rest outerMost (by omega))
    · exact List.mem_cons_self
    · have lower := inside first (by omega) (by omega)
      have upper := above place begun unfinished
      omega

end Open

end QueryFacts.Proofs.Parenthesis

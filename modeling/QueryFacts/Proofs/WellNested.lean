import Mathlib.Data.Set.Card
import QueryFacts.Cursor
import QueryFacts.Proofs.NestingRun

/-! The places that a statement's tokens have among its parentheses, against the pairs
that the text has. The stack of open parentheses is compared with the pairs once, in
`opened_open`; what a token says of its place is read off the step that added it. -/

namespace QueryFacts
open Proofs

namespace TokenSequence

/-- The nesting of a sequence as its tokens are written. -/
def sides (sequence : TokenSequence) : Parenthesis.Sides := sequence.tokens.toList.map Token.side?

def Pair (sequence : TokenSequence) (first last : Nat) : Prop := Parenthesis.Pair sequence.sides first last

def role (sequence : TokenSequence) (place : Nat) : Option ParenRole := sequence.tokens[place]?.bind (·.paren)

/-- The innermost pair around a place opens at `first`. A parenthesis is not inside its own pair. -/
def Innermost (sequence : TokenSequence) (place first : Nat) : Prop :=
  (∃ last, sequence.Pair first last ∧ first < place ∧ place < last) ∧
    ∀ other last, sequence.Pair other last → other < place → place < last → other ≤ first

/-- The sub-queries that a place is in; a parenthesis counts with its own pair. -/
def subqueriesAt (sequence : TokenSequence) (place : Nat) : Set (Nat × Nat) :=
  {pair | sequence.Pair pair.1 pair.2 ∧ sequence.role pair.1 = some ⟨.subquery, .opening⟩ ∧
    pair.1 ≤ place ∧ place ≤ pair.2}

/-- What the places of a token among the parentheses mean. -/
structure Placed (sequence : TokenSequence) (index : Nat) (token : Token) : Prop where
  position : token.position = index
  role : ∀ side, token.side? = some side ↔ ∃ kind, token.paren = some ⟨kind, side⟩
  partner : token.side?.isSome ↔ token.matching.isSome
  matching : ∀ other, token.matching = some other ↔ sequence.Pair index other ∨ sequence.Pair other index
  enclosing : ∀ first, token.enclosing = some first ↔ sequence.Innermost index first
  outside : token.enclosing = none ↔ ∀ first last, sequence.Pair first last → ¬(first < index ∧ index < last)
  level : token.level = (sequence.subqueriesAt index).ncard

structure WellNested (sequence : TokenSequence) : Prop where
  placed : ∀ (index : Nat) (token : Token), sequence.tokens[index]? = some token → sequence.Placed index token
  involutive : ∀ (index other : Nat) (token : Token), sequence.tokens[index]? = some token →
    token.matching = some other →
    ∃ partner : Token, sequence.tokens[other]? = some partner ∧ partner.matching = some index
  kinds : ∀ first last, sequence.Pair first last →
    ∃ kind, sequence.role first = some ⟨kind, .opening⟩ ∧ sequence.role last = some ⟨kind, .closing⟩

end TokenSequence

/-- The cursors that single steps and parentheses lead to, from any place. -/
inductive Cursor.Reached (sequence : TokenSequence) : Cursor → Prop where
  | place (index : Nat) : Reached sequence (sequence.cursor index)
  | next {cursor : Cursor} (reached : Reached sequence cursor) : Reached sequence cursor.next
  | previous {cursor : Cursor} (reached : Reached sequence cursor) : Reached sequence cursor.previous
  | enclosing {cursor : Cursor} (reached : Reached sequence cursor) : Reached sequence cursor.enclosing
  | matching {cursor : Cursor} (reached : Reached sequence cursor) : Reached sequence cursor.matching

end QueryFacts

namespace QueryFacts.Proofs.WellNested
open Nesting Parenthesis NestingRun

variable {limits : Limits} {lexemes : List Lexeme} {count : Nat} {state : Nesting}

def positions (opened : List OpenParen) : List Nat := opened.map (·.position)

def roleIn (tokens : Array Token) (place : Nat) : Option ParenRole := tokens[place]?.bind (·.paren)

/-- The stack holds the parentheses that are open, innermost first. -/
theorem opened_open (reached : Reaches limits lexemes count state) :
    Open (sides lexemes) count (positions state.opened) := by
  induction reached with
  | start => exact Open.start _
  | @next count before after lexeme reached found move ih =>
    have there := side_at found
    cases move with
    | opening side shallow =>
      rw [side] at there
      simpa only [positions, List.map_cons, reached.size] using ih.opens there
    | closing side opened =>
      rw [side] at there
      simp only [positions, opened, List.map_cons] at ih
      exact ih.closes there
    | keyword side keyword => rw [side] at there; exact ih.passes there
    | plain side plain => rw [side] at there; exact ih.passes there

theorem role_kept (reached : Reaches limits lexemes count state) {later : Nat} {final : Nesting}
    (ends : Reaches limits lexemes later final) (before : count ≤ later) {place : Nat} (old : place < count) :
    roleIn final.tokens place = roleIn state.tokens place := by
  have same := congrArg (Option.bind · Token.paren) (reached.kept ends before old)
  simp only [Option.bind_map] at same
  exact same

theorem role_added {before after : Nesting} {lexeme : Lexeme} (reached : Reaches limits lexemes count before)
    (move : Move limits before lexeme after) : roleIn after.tokens count = (addedToken before lexeme).paren := by
  have last := move.added
  rw [reached.size] at last
  rw [roleIn, last]
  rfl

theorem opened_role (reached : Reaches limits lexemes count state) :
    ∀ paren ∈ state.opened, roleIn state.tokens paren.position = some ⟨paren.kind, .opening⟩ := by
  induction reached with
  | start => intro paren member; cases member
  | @next count before after lexeme reached found move ih =>
    have last := role_added reached move
    have stacked := opened_open reached
    have next := Reaches.next reached found move
    have kept : ∀ paren ∈ before.opened, roleIn after.tokens paren.position = some ⟨paren.kind, .opening⟩ := by
      intro paren member
      have old := stacked.lt_place (List.mem_map_of_mem member)
      rw [role_kept reached next (Nat.le_succ _) old]
      exact ih paren member
    cases move with
    | opening side shallow =>
      intro paren member
      rcases List.mem_cons.mp member with rfl | old
      · change roleIn _ before.tokens.size = _
        rw [reached.size, last]
        simp [addedToken, side, openingToken]
      · exact kept paren old
    | closing side opened =>
      intro paren member
      exact kept paren (opened ▸ List.mem_cons_of_mem _ member)
    | keyword side keyword => exact kept
    | plain side plain => exact kept

theorem pair_roles (reached : Reaches limits lexemes count state) :
    ∀ first last, Pair (sides lexemes) first last → last < count →
      ∃ kind, roleIn state.tokens first = some ⟨kind, .opening⟩ ∧ roleIn state.tokens last = some ⟨kind, .closing⟩ := by
  induction reached with
  | start => intro first last pair inside; omega
  | @next count before after lexeme reached found move ih =>
    intro first last pair inside
    have next := Reaches.next reached found move
    by_cases old : last < count
    · obtain ⟨kind, opening, closing⟩ := ih first last pair old
      have earlier := Nat.lt_trans pair.ordered old
      exact ⟨kind, (role_kept reached next (Nat.le_succ _) earlier).trans opening,
        (role_kept reached next (Nat.le_succ _) old).trans closing⟩
    · obtain rfl : last = count := by omega
      have ending := (side_at found).symm.trans pair.closing
      have roles := opened_role reached
      have stacked := opened_open reached
      have added := role_added reached move
      have earlier := role_kept reached next (Nat.le_succ _) pair.ordered
      cases move with
      | @closing paren outer side opened =>
        simp only [positions, opened, List.map_cons] at stacked
        obtain rfl := (stacked.pair (side ▸ side_at found)).first_unique pair
        refine ⟨paren.kind, earlier.trans (roles paren (by simp [opened])), ?_⟩
        rw [added]
        simp [addedToken, side, opened, closingToken]
      | opening side | keyword side | plain side => simp [side] at ending

def partnerIn (tokens : Array Token) (place : Nat) : Option Nat := tokens[place]?.bind (·.matching)

private theorem partner_push (tokens : Array Token) (token : Token) (place : Nat) :
    partnerIn (tokens.push token) place = if place = tokens.size then token.matching else partnerIn tokens place := by
  rw [partnerIn, Array.getElem?_push]
  split <;> rfl

private theorem partner_modify (tokens : Array Token) {first : Nat} (partner place : Nat)
    (inside : first < tokens.size) :
    partnerIn (tokens.modify first fun token => { token with matching := some partner }) place =
      if first = place then some partner else partnerIn tokens place := by
  rw [partnerIn, Array.getElem?_modify]
  split
  next same =>
    subst place
    rw [Array.getElem?_eq_getElem inside]
    rfl
  next => rfl

/-- Among the tokens so far, partners are the parentheses of a pair. -/
theorem partner_iff (reached : Reaches limits lexemes count state) :
    ∀ index, index < count → ∀ other, partnerIn state.tokens index = some other ↔
      (Pair (sides lexemes) index other ∧ other < count) ∨ Pair (sides lexemes) other index := by
  induction reached with
  | start => intro index inside; omega
  | @next count before after lexeme reached found move ih =>
    have there := side_at found
    have stacked := opened_open reached
    -- A step that closes nothing adds a token without partner and completes no pair.
    have unclosed (token : Token) (none_ : token.matching = none) (open_ : lexeme.side? ≠ some .closing) :
        ∀ index, index < count + 1 → ∀ other, partnerIn (before.tokens.push token) index = some other ↔
          (Pair (sides lexemes) index other ∧ other < count + 1) ∨ Pair (sides lexemes) other index := by
      have incomplete {first : Nat} : ¬Pair (sides lexemes) first count := by
        intro pair
        exact open_ (Option.some.inj (there.symm.trans pair.closing))
      intro index inside other
      rw [partner_push, reached.size, none_]
      by_cases last : index = count
      · subst last
        rw [if_pos rfl]
        simp only [reduceCtorEq, false_iff, not_or, not_and]
        refine ⟨?_, incomplete⟩
        intro pair near
        have := pair.ordered
        omega
      · rw [if_neg last, ih index (by omega)]
        apply or_congr_left
        apply and_congr_right
        intro pair
        have different : other ≠ count := fun same => incomplete (same ▸ pair)
        omega
    cases move with
    | opening side shallow => exact unclosed _ rfl (by simp [side])
    | keyword side keyword => exact unclosed _ rfl (by simp [side])
    | plain side plain => exact unclosed _ rfl (by simp [side])
    | @closing paren outer side opened =>
      simp only [positions, opened, List.map_cons] at stacked
      rw [side] at there
      have pair := stacked.pair there
      have ordered := pair.ordered
      intro index inside other
      rw [partner_push, Array.size_modify, reached.size, partner_modify _ _ _ (by rw [reached.size]; exact ordered)]
      by_cases last : index = count
      · subst last
        rw [if_pos rfl]
        constructor
        · intro same
          obtain rfl : paren.position = other := Option.some.inj same
          exact .inr pair
        · rintro (⟨again, near⟩ | again)
          · have := again.ordered
            omega
          · exact congrArg some (pair.first_unique again)
      · rw [if_neg last]
        by_cases first : paren.position = index
        · subst first
          rw [if_pos rfl]
          constructor
          · intro same
            obtain rfl : count = other := Option.some.inj same
            exact .inl ⟨pair, Nat.lt_succ_self _⟩
          · rintro (⟨again, near⟩ | again)
            · exact congrArg some (pair.last_unique again)
            · exact absurd rfl (pair.opening_ne_closing again)
        · rw [if_neg first, ih index (by omega)]
          apply or_congr_left
          apply and_congr_right
          intro again
          have different : other ≠ count := fun same => first (pair.first_unique (same ▸ again))
          omega

theorem closed_later {final : Nesting} (ends : Reaches limits lexemes lexemes.length final) (closed : final.opened = [])
    (reached : Reaches limits lexemes count state) :
    ∀ first ∈ positions state.opened, ∃ last, Pair (sides lexemes) first last ∧ count ≤ last := by
  induction rest : lexemes.length - count generalizing count state with
  | zero =>
    intro first member
    obtain rfl : count = lexemes.length := by
      have := reached.count_le
      omega
    rw [reached.unique ends, closed] at member
    cases member
  | succ rest ih =>
    intro first member
    obtain ⟨lexeme, after, found, move, next⟩ := reached.onward ends (by omega)
    have later := ih next (by omega)
    have there := side_at found
    have stacked := opened_open reached
    cases move with
    | opening side shallow =>
      obtain ⟨last, pair, bound⟩ := later first (List.mem_cons_of_mem _ member)
      exact ⟨last, pair, by omega⟩
    | closing side opened =>
      rw [side] at there
      simp only [positions, opened, List.map_cons] at stacked member
      rcases List.mem_cons.mp member with rfl | outside
      · exact ⟨count, stacked.pair there, Nat.le_refl _⟩
      · obtain ⟨last, pair, bound⟩ := later first outside
        exact ⟨last, pair, by omega⟩
    | keyword side keyword =>
      obtain ⟨last, pair, bound⟩ := later first member
      exact ⟨last, pair, by omega⟩
    | plain side plain =>
      obtain ⟨last, pair, bound⟩ := later first member
      exact ⟨last, pair, by omega⟩

/-- The parentheses that are open around a lexeme, without its own pair. -/
def around (state : Nesting) (lexeme : Lexeme) : List OpenParen :=
  if lexeme.side? = some .closing then state.opened.tail else state.opened

/-- The parentheses that are open at a lexeme, with its own pair. -/
def openAt (state : Nesting) (lexeme : Lexeme) : List OpenParen :=
  if lexeme.side? = some .opening then ⟨state.tokens.size, state.parenKind, state.lastKeyword⟩ :: state.opened
  else state.opened

theorem addedToken_enclosing {before after : Nesting} {lexeme : Lexeme} (move : Move limits before lexeme after) :
    (addedToken before lexeme).enclosing = (positions (around before lexeme)).head? := by
  cases move with
  | opening side shallow => simp [addedToken, around, side, openingToken, tokenOf, positions]
  | closing side opened => simp [addedToken, around, side, opened, closingToken, positions]
  | keyword side keyword => simp [addedToken, around, side, tokenOf, positions]
  | plain side plain => simp [addedToken, around, side, tokenOf, positions]

theorem addedToken_level {before after : Nesting} {lexeme : Lexeme} (move : Move limits before lexeme after) :
    (addedToken before lexeme).level = (openAt before lexeme).countP (·.kind = .subquery) := by
  cases move with
  | opening side shallow =>
    simp only [addedToken, openAt, side, openingToken, if_true, List.countP_cons, Nesting.level, decide_eq_true_eq]
    exact Nat.add_comm ..
  | closing side opened => simp [addedToken, openAt, side, opened, closingToken, tokenOf, Nesting.level]
  | keyword side keyword => simp [addedToken, openAt, side, tokenOf, Nesting.level]
  | plain side plain => simp [addedToken, openAt, side, tokenOf, Nesting.level]

section
variable {final before after : Nesting} {index : Nat} {lexeme : Lexeme}
  (ends : Reaches limits lexemes lexemes.length final) (closed : final.opened = [])
  (reached : Reaches limits lexemes index before) (found : lexemes[index]? = some lexeme)
  (move : Move limits before lexeme after)
include ends closed reached found move

theorem mem_around_iff (first : Nat) :
    first ∈ positions (around before lexeme) ↔
      ∃ last, Pair (sides lexemes) first last ∧ first < index ∧ index < last := by
  have there := side_at found
  have stacked := opened_open reached
  by_cases closes : lexeme.side? = some .closing
  · rw [closes] at there
    cases move with
    | @closing paren outer side opened =>
      simp only [around, closes, opened, List.tail_cons, if_true]
      have open_ := stacked
      simp only [positions, opened, List.map_cons] at open_
      have own := open_.pair there
      constructor
      · intro member
        obtain ⟨last, pair, bound⟩ := closed_later ends closed reached first (by
          simp only [positions, opened, List.map_cons]
          exact List.mem_cons_of_mem _ member)
        have inner := (List.pairwise_cons.mp open_.decreasing).1 first member
        have different : index ≠ last := by
          rintro rfl
          have := own.first_unique pair
          omega
        exact ⟨last, pair, open_.lt_place (List.mem_cons_of_mem _ member), by omega⟩
      · intro ⟨last, pair, begun, unfinished⟩
        rcases List.mem_cons.mp (open_.mem_of_pair pair begun (Nat.le_of_lt unfinished)) with rfl | outside
        · have := own.last_unique pair
          omega
        · exact outside
    | opening side | keyword side | plain side => simp [side] at closes
  · simp only [around, closes, if_false]
    constructor
    · intro member
      obtain ⟨last, pair, bound⟩ := closed_later ends closed reached first member
      have different : index ≠ last := by
        rintro rfl
        exact closes (Option.some.inj (there.symm.trans pair.closing))
      exact ⟨last, pair, stacked.lt_place member, by omega⟩
    · intro ⟨last, pair, begun, unfinished⟩
      exact stacked.mem_of_pair pair begun (Nat.le_of_lt unfinished)

theorem mem_openAt_iff (first : Nat) :
    first ∈ positions (openAt before lexeme) ↔
      ∃ last, Pair (sides lexemes) first last ∧ first ≤ index ∧ index ≤ last := by
  have there := side_at found
  have stacked := opened_open reached
  have next := Reaches.next reached found move
  by_cases opens : lexeme.side? = some .opening
  · rw [opens] at there
    cases move with
    | opening side shallow =>
      have inner := opened_open next
      have same : positions (openAt before lexeme) = index :: positions before.opened := by
        simp [openAt, opens, positions, reached.size]
      simp only [positions, List.map_cons, reached.size] at inner
      rw [same]
      constructor
      · intro member
        obtain ⟨last, pair, bound⟩ := closed_later ends closed next first (by
          simpa only [positions, List.map_cons, reached.size] using member)
        exact ⟨last, pair, Nat.le_of_lt_succ (inner.lt_place member), by omega⟩
      · intro ⟨last, pair, begun, unfinished⟩
        have different : index ≠ last := by
          rintro rfl
          have both := there.symm.trans pair.closing
          simp at both
        exact inner.mem_of_pair pair (Nat.lt_succ_of_le begun) (by omega)
    | closing side | keyword side | plain side => simp [side] at opens
  · simp only [openAt, opens, if_false]
    constructor
    · intro member
      obtain ⟨last, pair, bound⟩ := closed_later ends closed reached first member
      exact ⟨last, pair, Nat.le_of_lt (stacked.lt_place member), bound⟩
    · intro ⟨last, pair, begun, unfinished⟩
      have different : first ≠ index := by
        rintro rfl
        exact opens (Option.some.inj (there.symm.trans pair.opening))
      exact stacked.mem_of_pair pair (by omega) unfinished

end

private theorem around_decreasing {before : Nesting} {index : Nat} (reached : Reaches limits lexemes index before)
    (lexeme : Lexeme) : (positions (around before lexeme)).Pairwise (· > ·) := by
  have whole := (opened_open reached).decreasing
  unfold around
  split
  · exact whole.sublist ((List.tail_sublist _).map _)
  · exact whole

private theorem openAt_decreasing {before after : Nesting} {index : Nat} {lexeme : Lexeme}
    (reached : Reaches limits lexemes index before) (found : lexemes[index]? = some lexeme)
    (move : Move limits before lexeme after) : (positions (openAt before lexeme)).Pairwise (· > ·) := by
  by_cases opens : lexeme.side? = some .opening
  · cases move with
    | opening side shallow =>
      have whole := (opened_open (Reaches.next reached found (.opening side shallow))).decreasing
      simpa only [openAt, opens, if_true] using whole
    | closing side | keyword side | plain side => simp [side] at opens
  · simpa only [openAt, opens, if_false] using (opened_open reached).decreasing

theorem sides_eq {final : Nesting} (ends : Reaches limits lexemes lexemes.length final) :
    TokenSequence.sides ⟨final.tokens⟩ = sides lexemes :=
  ends.map_tokens Token.side? Lexeme.side? fun _ _ writes => writes.side?

theorem sides_annotated {sequence : TokenSequence} (annotated : annotate limits lexemes = .ok sequence) :
    sequence.sides = sides lexemes := by
  obtain ⟨final, ends, -, rfl⟩ := annotate_ok_iff.mp annotated
  exact sides_eq ends

private theorem addedToken_role {before after : Nesting} {lexeme : Lexeme} (move : Move limits before lexeme after)
    (side : ParenSide) :
    lexeme.side? = some side ↔ ∃ kind, (addedToken before lexeme).paren = some ⟨kind, side⟩ := by
  cases move with
  | opening found shallow => cases side <;> simp [addedToken, found, openingToken]
  | closing found opened => cases side <;> simp [addedToken, found, opened, closingToken]
  | keyword found keyword => simp [addedToken, found, tokenOf]
  | plain found plain => simp [addedToken, found, tokenOf]

private theorem ncard_pairs (pairs : Set (Nat × Nat)) (firsts : List Nat) (nodup : firsts.Nodup)
    (unique : ∀ pair ∈ pairs, ∀ other ∈ pairs, pair.1 = other.1 → pair = other)
    (covered : ∀ first, first ∈ firsts ↔ ∃ last, (first, last) ∈ pairs) : pairs.ncard = firsts.length := by
  have image : Prod.fst '' pairs = (firsts.toFinset : Set Nat) := by
    ext first
    simp [covered]
  have injective : Set.InjOn Prod.fst pairs := fun pair member other also same => unique pair member other also same
  rw [← injective.ncard_image, image, Set.ncard_coe_finset, List.toFinset_card_of_nodup nodup]

private theorem head?_decreasing {places : List Nat} (ordered : places.Pairwise (· > ·)) (first : Nat) :
    places.head? = some first ↔ first ∈ places ∧ ∀ other ∈ places, other ≤ first := by
  cases places with
  | nil => simp
  | cons head rest =>
    have below := (List.pairwise_cons.mp ordered).1
    simp only [List.head?_cons, Option.some.injEq]
    constructor
    · rintro rfl
      refine ⟨List.mem_cons_self, ?_⟩
      intro other member
      rcases List.mem_cons.mp member with rfl | inside
      · exact Nat.le_refl _
      · exact Nat.le_of_lt (below other inside)
    · intro ⟨member, greatest⟩
      rcases List.mem_cons.mp member with rfl | inside
      · rfl
      · have lower := below first inside
        have upper := greatest head List.mem_cons_self
        omega

private theorem subqueriesAt_ncard {sequence : TokenSequence} {index : Nat} {opened : List OpenParen}
    (ordered : (positions opened).Pairwise (· > ·))
    (around_ : ∀ first, first ∈ positions opened ↔ ∃ last, sequence.Pair first last ∧ first ≤ index ∧ index ≤ last)
    (roles : ∀ paren ∈ opened, sequence.role paren.position = some ⟨paren.kind, .opening⟩) :
    (sequence.subqueriesAt index).ncard = opened.countP (·.kind = .subquery) := by
  have kept : (positions (opened.filter (·.kind = .subquery))).Sublist (positions opened) := List.filter_sublist.map _
  rw [ncard_pairs _ (positions (opened.filter (·.kind = .subquery)))]
  · rw [positions, List.length_map, List.countP_eq_length_filter]
  · exact (ordered.sublist kept).imp (fun greater => Nat.ne_of_gt greater)
  · intro ⟨first, last⟩ inside ⟨other, partner⟩ also same
    obtain rfl : first = other := same
    exact congrArg (first, ·) (inside.1.last_unique also.1)
  · intro first
    constructor
    · intro member
      obtain ⟨last, pair, begun, unfinished⟩ := (around_ first).mp (kept.mem member)
      obtain ⟨paren, selected, rfl⟩ := List.mem_map.mp member
      obtain ⟨there, subquery⟩ := List.mem_filter.mp selected
      have kind : paren.kind = .subquery := by simpa using subquery
      exact ⟨last, pair, by rw [roles paren there, kind], begun, unfinished⟩
    · intro ⟨last, pair, role, begun, unfinished⟩
      obtain ⟨paren, there, rfl⟩ := List.mem_map.mp ((around_ first).mpr ⟨last, pair, begun, unfinished⟩)
      have kind : paren.kind = .subquery := by
        have both := (roles paren there).symm.trans role
        simpa using both
      exact List.mem_map.mpr ⟨paren, List.mem_filter.mpr ⟨there, by simpa using kind⟩, rfl⟩

private theorem openAt_roles {final before after : Nesting} {index : Nat} {lexeme : Lexeme}
    (ends : Reaches limits lexemes lexemes.length final) (reached : Reaches limits lexemes index before)
    (found : lexemes[index]? = some lexeme) (move : Move limits before lexeme after) :
    ∀ paren ∈ openAt before lexeme, roleIn final.tokens paren.position = some ⟨paren.kind, .opening⟩ := by
  intro paren member
  have next := Reaches.next reached found move
  by_cases opens : lexeme.side? = some .opening
  · have inside : paren ∈ after.opened := by
      cases move with
      | opening side shallow => simpa only [openAt, opens, if_true] using member
      | closing side | keyword side | plain side => simp [side] at opens
    have old := (opened_open next).lt_place (List.mem_map_of_mem inside)
    rw [role_kept next ends next.count_le old]
    exact opened_role next paren inside
  · simp only [openAt, opens, if_false] at member
    have old := (opened_open reached).lt_place (List.mem_map_of_mem member)
    rw [role_kept reached ends reached.count_le old]
    exact opened_role reached paren member

private theorem side?_isSome_iff {final before after : Nesting} {index : Nat} {lexeme : Lexeme}
    (ends : Reaches limits lexemes lexemes.length final) (closed : final.opened = [])
    (reached : Reaches limits lexemes index before) (found : lexemes[index]? = some lexeme)
    (move : Move limits before lexeme after) :
    lexeme.side?.isSome ↔
      ∃ other, Pair (sides lexemes) index other ∨ Pair (sides lexemes) other index := by
  have there := side_at found
  have stacked := opened_open reached
  constructor
  · intro parenthesis
    cases side : lexeme.side? with
    | none => simp [side] at parenthesis
    | some direction =>
      cases direction with
      | opening =>
        have member : index ∈ positions (openAt before lexeme) := by
          simp [openAt, side, positions, reached.size]
        obtain ⟨last, pair, -, -⟩ := (mem_openAt_iff ends closed reached found move index).mp member
        exact ⟨last, .inl pair⟩
      | closing =>
        rw [side] at there
        cases move with
        | @closing paren outer again opened =>
          simp only [positions, opened, List.map_cons] at stacked
          exact ⟨paren.position, .inr (stacked.pair there)⟩
        | opening again | keyword again | plain again => simp [side] at again
  · rintro ⟨other, pair | pair⟩
    · rw [Option.some.inj (there.symm.trans pair.opening)]
      rfl
    · rw [Option.some.inj (there.symm.trans pair.closing)]
      rfl

theorem annotate_placed {final : Nesting} (ends : Reaches limits lexemes lexemes.length final)
    (closed : final.opened = []) {index : Nat} {token : Token} (stored : final.tokens[index]? = some token) :
    TokenSequence.Placed ⟨final.tokens⟩ index token := by
  obtain ⟨lexeme, before, after, found, reached, move, next, alone⟩ := ends.token stored
  have writes := (addedToken_writes before lexeme).ofAlone alone
  have pairs : TokenSequence.Pair ⟨final.tokens⟩ = Pair (sides lexemes) := congrArg Pair (sides_eq ends)
  have matched : ∀ other, token.matching = some other ↔
      Pair (sides lexemes) index other ∨ Pair (sides lexemes) other index := by
    intro other
    have partner := partner_iff ends index (List.getElem?_eq_some_iff.mp found).1 other
    have within : Pair (sides lexemes) index other → other < lexemes.length := fun pair => by
      simpa [sides] using (List.getElem?_eq_some_iff.mp pair.closing).1
    simp only [partnerIn, stored, Option.bind_some] at partner
    rw [partner]
    exact or_congr_left (and_iff_left_of_imp within)
  have parens : token.paren = (addedToken before lexeme).paren := (congrArg Token.paren alone :)
  have enclosed : token.enclosing = (positions (around before lexeme)).head? :=
    (congrArg Token.enclosing alone :).trans (addedToken_enclosing move)
  have ordered := around_decreasing reached lexeme
  have surrounding := mem_around_iff ends closed reached found move
  refine ⟨?_, ?_, ?_, ?_, ?_, ?_, ?_⟩
  · exact (congrArg Token.position alone :).trans ((addedToken_position before lexeme).trans reached.size)
  · intro side
    rw [writes.side?, addedToken_role move side, parens]
  · rw [writes.side?, side?_isSome_iff ends closed reached found move, Option.isSome_iff_exists]
    exact exists_congr fun other => (matched other).symm
  · simpa only [pairs] using matched
  · intro first
    rw [enclosed, head?_decreasing ordered]
    simp only [surrounding, TokenSequence.Innermost, pairs]
    refine and_congr_right fun _ => ⟨?_, ?_⟩
    · intro greatest other last pair begun unfinished
      exact greatest other ⟨last, pair, begun, unfinished⟩
    · rintro greatest other ⟨last, pair, begun, unfinished⟩
      exact greatest other last pair begun unfinished
  · rw [enclosed, List.head?_eq_none_iff, List.eq_nil_iff_forall_not_mem]
    simp only [surrounding, pairs, not_exists, not_and]
  · rw [subqueriesAt_ncard (openAt_decreasing reached found move)]
    · exact (congrArg Token.level alone :).trans (addedToken_level move)
    · simpa only [pairs] using mem_openAt_iff ends closed reached found move
    · exact openAt_roles ends reached found move

theorem pair_inside {sequence : TokenSequence} {first last : Nat} (pair : sequence.Pair first last) :
    first < sequence.size ∧ last < sequence.size := by
  have ordered := pair.ordered
  have inside : last < sequence.size := by
    simpa [TokenSequence.sides, TokenSequence.size] using (List.getElem?_eq_some_iff.mp pair.closing).1
  omega

theorem annotate_wellNested {sequence : TokenSequence} (annotated : annotate limits lexemes = .ok sequence) :
    sequence.WellNested := by
  obtain ⟨final, ends, closed, rfl⟩ := annotate_ok_iff.mp annotated
  have placed (index : Nat) (token : Token) (stored : final.tokens[index]? = some token) :=
    annotate_placed ends closed stored
  refine ⟨placed, ?_, ?_⟩
  · intro index other token stored matching
    have pair := ((placed index token stored).matching other).mp matching
    have inside : other < final.tokens.size := by
      rcases pair with pair | pair
      · exact (pair_inside pair).2
      · exact (pair_inside pair).1
    have found := Array.getElem?_eq_getElem inside
    exact ⟨_, found, ((placed other _ found).matching index).mpr pair.symm⟩
  · intro first last pair
    rw [TokenSequence.Pair, sides_eq ends] at pair
    have within : last < lexemes.length := by
      simpa [sides] using (List.getElem?_eq_some_iff.mp pair.closing).1
    exact pair_roles ends first last pair within

theorem cursor_inside {sequence : TokenSequence} (nested : sequence.WellNested) {cursor : Cursor}
    (reached : Cursor.Reached sequence cursor) :
    cursor.sequence = sequence ∧ ∀ index, cursor.index = some index → index < sequence.size := by
  induction reached with
  | place index =>
    refine ⟨rfl, ?_⟩
    intro other found
    simp only [TokenSequence.cursor] at found
    split at found
    · cases found; assumption
    · cases found
  | @next cursor reached ih =>
    obtain ⟨rfl, inside⟩ := ih
    refine ⟨rfl, ?_⟩
    intro index found
    obtain ⟨before, there, moved⟩ := Option.bind_eq_some_iff.mp found
    split at moved
    · cases moved; assumption
    · cases moved
  | @previous cursor reached ih =>
    obtain ⟨rfl, inside⟩ := ih
    refine ⟨rfl, ?_⟩
    intro index found
    obtain ⟨after, there, moved⟩ := Option.bind_eq_some_iff.mp found
    have bound := inside after there
    split at moved
    · cases moved; omega
    · cases moved
  | @enclosing cursor reached ih =>
    obtain ⟨rfl, inside⟩ := ih
    refine ⟨rfl, ?_⟩
    intro first found
    obtain ⟨token, known, around⟩ := Option.bind_eq_some_iff.mp found
    obtain ⟨index, there, stored⟩ := Option.bind_eq_some_iff.mp known
    obtain ⟨last, pair, -⟩ := (((nested.placed index token stored).enclosing first).mp around).1
    exact (pair_inside pair).1
  | @matching cursor reached ih =>
    obtain ⟨rfl, inside⟩ := ih
    refine ⟨rfl, ?_⟩
    intro other found
    obtain ⟨token, known, matching⟩ := Option.bind_eq_some_iff.mp found
    obtain ⟨index, there, stored⟩ := Option.bind_eq_some_iff.mp known
    rcases ((nested.placed index token stored).matching other).mp matching with pair | pair
    · exact (pair_inside pair).2
    · exact (pair_inside pair).1

theorem pair_of_matching {sequence : TokenSequence} (nested : sequence.WellNested) {first last : Nat} {token : Token}
    (stored : sequence.tokens[first]? = some token) (matching : token.matching = some last) (ordered : first < last) :
    sequence.Pair first last := by
  rcases ((nested.placed first token stored).matching last).mp matching with pair | pair
  · exact pair
  · exact absurd pair.ordered (Nat.lt_asymm ordered)

/-- From each parenthesis of a pair a step leads to the other. -/
theorem matching_of_pair {sequence : TokenSequence} (nested : sequence.WellNested) {first last : Nat}
    (pair : sequence.Pair first last) : (sequence.cursor first).matching = sequence.cursor last ∧
      (sequence.cursor last).matching = sequence.cursor first := by
  obtain ⟨begun, inside⟩ := pair_inside pair
  have other {place partner : Nat} (there : place < sequence.size) (known : partner < sequence.size)
      (paired : sequence.Pair place partner ∨ sequence.Pair partner place) :
      (sequence.cursor place).matching = sequence.cursor partner := by
    have found := Array.getElem?_eq_getElem there
    have matching := ((nested.placed place _ found).matching partner).mpr paired
    rw [Cursor.matching, Cursor.token?_cursor, found, Option.bind_some, matching, Cursor.cursor_of_lt known]
    rfl
  exact ⟨other begun inside (.inl pair), other inside begun (.inr pair)⟩

/-- Every statement that is tokenized is well nested, and no step between its tokens leads
off the sequence to a token that does not exist. -/
theorem tokenize_wellNested {text : List Char} {sequence : TokenSequence}
    (read : tokenize limits text = .ok sequence) :
    sequence.WellNested ∧ ∀ cursor, Cursor.Reached sequence cursor →
      ∀ index, cursor.index = some index → index < sequence.size := by
  obtain ⟨lexemes, -, -, annotated⟩ := tokenize_ok_iff.mp read
  have nested := annotate_wellNested annotated
  exact ⟨nested, fun cursor reached => (cursor_inside nested reached).2⟩

theorem tokenize_wellNested_subquery :
    ∃ sequence, tokenize {} "SELECT f(a), (b) FROM (SELECT (c) FROM d) e".toList = .ok sequence ∧
      sequence.WellNested ∧ ∀ cursor, Cursor.Reached sequence cursor →
        ∀ index, cursor.index = some index → index < sequence.size := by
  have succeeds : (tokenize {} "SELECT f(a), (b) FROM (SELECT (c) FROM d) e".toList).toBool = true := by
    decide +kernel
  cases read : tokenize {} "SELECT f(a), (b) FROM (SELECT (c) FROM d) e".toList with
  | error error => rw [read] at succeeds; cases succeeds
  | ok sequence => exact ⟨sequence, rfl, tokenize_wellNested read⟩

end QueryFacts.Proofs.WellNested

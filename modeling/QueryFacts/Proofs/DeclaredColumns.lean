import QueryFacts.Proofs.SelectFacts

/-! A common table expression with a declared list of columns, as it is read from the tokens
of its statement. -/

namespace QueryFacts

/-- The tokens of `WITH query (list) AS (body)` and of the main statement after it. -/
structure DeclaredQuery where
  header : Token
  query : Token
  opening : Token
  list : List Token
  closing : Token
  as : Token
  bodyOpening : Token
  body : List Token
  bodyClosing : Token
  main : Token
  rest : List Token

namespace DeclaredQuery

def tail (parts : DeclaredQuery) : List Token :=
  parts.query :: parts.opening :: (parts.list ++ parts.closing :: parts.as :: parts.bodyOpening ::
    (parts.body ++ parts.bodyClosing :: parts.main :: parts.rest))

def sequence (parts : DeclaredQuery) : TokenSequence := ⟨(parts.header :: parts.tail).toArray⟩

/-- The place of the closing parenthesis of the list. -/
def listEnd (parts : DeclaredQuery) : Nat := 3 + parts.list.length

/-- The place of the closing parenthesis of the body. -/
def bodyEnd (parts : DeclaredQuery) : Nat := parts.listEnd + 3 + parts.body.length

/-- What the reading of the declaration asks of its tokens. -/
structure Readable (parts : DeclaredQuery) : Prop where
  header : parts.header.kind = .keyword ∧ parts.header.normalized = "WITH"
  query : parts.query.kind = .name
  opening : parts.opening.kind = .punctuation ∧ parts.opening.paren = some ⟨.withColumns, .opening⟩ ∧
    parts.opening.matching = some parts.listEnd
  list : ∀ token ∈ parts.list, token.kind ≠ .dot
  closing : parts.closing.kind = .punctuation
  as : parts.as.kind = .keyword ∧ parts.as.normalized = "AS"
  bodyOpening : parts.bodyOpening.paren = some ⟨.withQuery, .opening⟩ ∧ parts.bodyOpening.matching = some parts.bodyEnd
  main : parts.main.kind = .keyword ∧ parts.main.normalized ≠ "AS"
  onlyHeader : ∀ token ∈ parts.tail, token.kind = .keyword → token.normalized ≠ "WITH"

end DeclaredQuery

namespace Proofs.DeclaredColumns
open DeclaredQuery

variable {parts : DeclaredQuery}

section Places

variable {sequence : TokenSequence} {front inner rest : List Token}

theorem token?_after (same : sequence.tokens.toList = front ++ rest) {start : Nat} (starts : front.length = start)
    (place : Nat) : (sequence.cursor (start + place)).token? = rest[place]? := by
  rw [Cursor.token?_cursor, ← Array.getElem?_toList, same, ← starts, List.getElem?_append_right (Nat.le_add_right _ _),
    Nat.add_sub_cancel_left]

theorem between_of_append (same : sequence.tokens.toList = front ++ (inner ++ rest)) {first last : Nat}
    (starts : front.length = first + 1) (ends : first + 1 + inner.length = last) :
    sequence.between first last = inner := by
  rw [TokenSequence.between, same, ← List.append_assoc, List.take_left' (by rw [List.length_append, starts, ends]),
    List.drop_left' starts]

end Places

/-- The tokens after the declared list. -/
def afterListTokens (parts : DeclaredQuery) : List Token :=
  parts.closing :: parts.as :: parts.bodyOpening :: (parts.body ++ parts.bodyClosing :: parts.main :: parts.rest)

theorem tokens_list : parts.sequence.tokens.toList =
    [parts.header, parts.query, parts.opening] ++ (parts.list ++ afterListTokens parts) := rfl

theorem tokens_listEnd :
    parts.sequence.tokens.toList = ([parts.header, parts.query, parts.opening] ++ parts.list) ++
        afterListTokens parts := by
  rw [tokens_list, List.append_assoc]

theorem tokens_body : parts.sequence.tokens.toList =
    ([parts.header, parts.query, parts.opening] ++ parts.list ++ [parts.closing, parts.as, parts.bodyOpening]) ++
      (parts.body ++ parts.bodyClosing :: parts.main :: parts.rest) := by
  rw [tokens_listEnd, List.append_assoc _ [_, _, _]]
  rfl

theorem tokens_bodyEnd : parts.sequence.tokens.toList =
    ([parts.header, parts.query, parts.opening] ++ parts.list ++
      [parts.closing, parts.as, parts.bodyOpening] ++ parts.body) ++
      (parts.bodyClosing :: parts.main :: parts.rest) := by
  rw [tokens_body, List.append_assoc _ parts.body]

theorem token?_listEnd (place : Nat) :
    (parts.sequence.cursor (parts.listEnd + place)).token? = (afterListTokens parts)[place]? :=
  token?_after tokens_listEnd (by simp [listEnd]; omega) place

theorem token?_bodyEnd (place : Nat) :
    (parts.sequence.cursor (parts.bodyEnd + place)).token? = (parts.bodyClosing :: parts.main :: parts.rest)[place]? :=
  token?_after tokens_bodyEnd (by simp [bodyEnd, listEnd]; omega) place

theorem bodyEnd_lt : parts.bodyEnd + 1 < parts.sequence.size := by
  have length : parts.sequence.tokens.toList.length = _ := congrArg List.length tokens_bodyEnd
  simp only [Array.length_toList, List.length_append, List.length_cons, List.length_nil] at length
  rw [TokenSequence.size, length, bodyEnd, listEnd]
  omega

theorem listEnd_lt : parts.listEnd < parts.sequence.size := by
  have later : parts.bodyEnd + 1 < parts.sequence.size := bodyEnd_lt
  rw [bodyEnd] at later
  omega

theorem between_list : parts.sequence.between 2 parts.listEnd = parts.list := between_of_append tokens_list rfl rfl

theorem between_body : parts.sequence.between (parts.listEnd + 2) parts.bodyEnd = parts.body :=
  between_of_append tokens_body (by simp [listEnd]; omega) rfl

/-- The positions of the names in the list. -/
def listed (parts : DeclaredQuery) : List Nat :=
  (((parts.sequence.cursor 2).between (parts.sequence.cursor parts.listEnd)).filter fun cursor =>
    cursor.isName && !cursor.next.isDot).filterMap (·.index)

/-- What the declaration says. -/
def declared (parts : DeclaredQuery) : WithClause where
  bodies := ⟨[(parts.query.value, String.ofList (Token.writeAfter none parts.body))]⟩
  columnLists := [⟨parts.query.value, listed parts⟩]

theorem kind?_of_token? {cursor : Cursor} {token : Token} (found : cursor.token? = some token) :
    cursor.kind? = some token.kind := by
  rw [Cursor.kind?, found]
  rfl

theorem isWord_of_token? {cursor : Cursor} {token : Token} (found : cursor.token? = some token) (word : String) :
    cursor.isWord word = (token.kind == .keyword && token.normalized == word) := by
  rw [Cursor.isWord, Cursor.isKeyword, kind?_of_token? found, Cursor.normalized, found]
  rfl

theorem opens_of_token? {cursor : Cursor} {token : Token} (found : cursor.token? = some token) (kind : ParenKind) :
    cursor.opens kind = (token.paren == some ⟨kind, .opening⟩) := by
  rw [Cursor.opens, Cursor.paren?, found]
  rfl

theorem matching_of_token? {sequence : TokenSequence} {cursor : Cursor} {token : Token}
    (on : cursor.sequence = sequence)
    (found : cursor.token? = some token) {partner : Nat} (matched : token.matching = some partner)
    (inside : partner < sequence.size) : cursor.matching = sequence.cursor partner := by
  rw [Cursor.matching, found, Option.bind_some, matched, Cursor.cursor_of_lt inside, on]

section Read

variable (readable : parts.Readable)
include readable

theorem isDot_of_list {place : Nat} (inside : place ≤ parts.list.length) :
    (parts.sequence.cursor (3 + place)).isDot = false := by
  have here : (parts.sequence.cursor (3 + place)).token? = (parts.list ++ afterListTokens parts)[place]? :=
    token?_after tokens_list rfl place
  have different {token : Token} (found : (parts.list ++ afterListTokens parts)[place]? = some token) :
      token.kind ≠ .dot := by
    rcases Nat.lt_or_eq_of_le inside with before | rfl
    · rw [List.getElem?_append_left before] at found
      exact readable.list token (List.mem_of_getElem? found)
    · rw [List.getElem?_append_right (Nat.le_refl _), Nat.sub_self] at found
      obtain rfl : parts.closing = token := Option.some.inj found
      rw [readable.closing]
      exact nofun
  rw [Cursor.isDot, Cursor.kind?, here]
  cases found : (parts.list ++ afterListTokens parts)[place]? with
  | none => rfl
  | some token => simpa using different found

/-- The names of the list, by their positions. -/
theorem names_listed : (listed parts).map (fun position => (parts.sequence.cursor position).value) =
    (parts.list.filter (·.kind == .name)).map (·.value) := by
  have inside : parts.listEnd < parts.sequence.size := listEnd_lt
  rw [listed, List.map_filterMap, List.filterMap_filter, ← List.filterMap_eq_map, List.filterMap_filter]
  conv => rhs; rw [← between_list]
  refine Cursor.filterMap_between (by rw [listEnd]; omega) inside fun index token after before found => ?_
  have here : (parts.sequence.cursor index).token? = some token := Cursor.token?_cursor.trans found
  obtain ⟨place, rfl⟩ := Nat.exists_eq_add_of_le after
  have noDot : (parts.sequence.cursor (3 + place)).next.isDot = false := by
    rw [Cursor.next_cursor]
    exact isDot_of_list readable (show place + 1 ≤ parts.list.length by rw [listEnd] at before; omega)
  have position : (parts.sequence.cursor (3 + place)).index = some (3 + place) := by
    rw [Cursor.cursor_of_lt (Nat.lt_trans before inside)]
  have value : (parts.sequence.cursor (3 + place)).value = token.value := by rw [Cursor.value, here]; rfl
  rw [Cursor.isName, kind?_of_token? here, noDot]
  simp [position, value]

theorem readBody_declared (clause : WithClause) (name : String) :
    WithClause.readBody clause name (parts.sequence.cursor (parts.listEnd + 2)) =
      .ok ({ clause with
        bodies := clause.bodies.insertNew name (String.ofList (Token.writeAfter none parts.body)) }, none) := by
  have opening : (parts.sequence.cursor (parts.listEnd + 2)).token? = some parts.bodyOpening := token?_listEnd 2
  have main : (parts.sequence.cursor (parts.bodyEnd + 1)).token? = some parts.main := token?_bodyEnd 1
  have order : parts.listEnd + 2 < parts.bodyEnd := by rw [bodyEnd]; omega
  have closes : parts.bodyEnd < parts.sequence.size := Nat.lt_of_succ_lt bodyEnd_lt
  have opens : (parts.sequence.cursor (parts.listEnd + 2)).opens .withQuery = true := by
    rw [opens_of_token? opening, readable.bodyOpening.1]
    rfl
  have first : (parts.sequence.cursor (parts.listEnd + 2)).index = some (parts.listEnd + 2) := by
    rw [Cursor.cursor_of_lt (Nat.lt_trans order closes)]
  have last : (parts.sequence.cursor parts.bodyEnd).index = some parts.bodyEnd := by rw [Cursor.cursor_of_lt closes]
  have on : (parts.sequence.cursor (parts.listEnd + 2)).sequence = parts.sequence := rfl
  have matching : (parts.sequence.cursor (parts.listEnd + 2)).matching = parts.sequence.cursor parts.bodyEnd :=
    matching_of_token? rfl opening readable.bodyOpening.2 closes
  have noComma : (parts.sequence.cursor (parts.bodyEnd + 1)).isComma = false := by
    rw [Cursor.isComma, kind?_of_token? main, readable.main.1]
    rfl
  have noAs : (parts.sequence.cursor (parts.bodyEnd + 1)).isWord "AS" = false := by
    rw [isWord_of_token? main, beq_false_of_ne readable.main.2, Bool.and_false]
  simp only [WithClause.readBody, opens, first, matching, last, on, Cursor.next_cursor, noComma, noAs,
    TokenSequence.write, between_body, Bool.not_true, Bool.false_eq_true, if_false]

theorem readQuery_declared : WithClause.readQuery {} (parts.sequence.cursor 1) = .ok (declared parts, none) := by
  have closes : parts.listEnd < parts.sequence.size := listEnd_lt
  have query : (parts.sequence.cursor 1).token? = some parts.query := Cursor.token?_cursor
  have opening : (parts.sequence.cursor 2).token? = some parts.opening := Cursor.token?_cursor
  have as : (parts.sequence.cursor (parts.listEnd + 1)).token? = some parts.as := token?_listEnd 1
  have isName : WithClause.isQueryName (parts.sequence.cursor 1) = true := by
    rw [WithClause.isQueryName, Cursor.isName, kind?_of_token? query, readable.query]
    rfl
  have noDot : (parts.sequence.cursor 1).next.isDot = false := by
    rw [Cursor.next_cursor, Cursor.isDot, kind?_of_token? opening, readable.opening.1]
    rfl
  have last (count : Nat) : WithClause.lastNamePart count (parts.sequence.cursor 1) = parts.sequence.cursor 1 := by
    cases count with
    | zero => rfl
    | succ count => simp only [WithClause.lastNamePart, noDot, Bool.false_and, Bool.false_eq_true, if_false]
  have name : (parts.sequence.cursor 1).dottedName = parts.query.value := by
    have value : (parts.sequence.cursor 1).value = parts.query.value := by rw [Cursor.value, query]; rfl
    rw [Cursor.dottedName, Cursor.cursor_of_lt (Nat.lt_trans (by rw [listEnd]; omega) closes)]
    exact value
  have opens : (parts.sequence.cursor 2).opens .withColumns = true := by
    rw [opens_of_token? opening, readable.opening.2.1]
    rfl
  have matching : (parts.sequence.cursor 2).matching = parts.sequence.cursor parts.listEnd :=
    matching_of_token? rfl opening readable.opening.2.2 closes
  have isAs : (parts.sequence.cursor (parts.listEnd + 1)).isWord "AS" = true := by
    rw [isWord_of_token? as, readable.as.1, readable.as.2]
    rfl
  simp only [WithClause.readQuery, isName, last, name, Cursor.next_cursor, opens, matching,
    isAs, readBody_declared readable, Bool.not_true, Bool.false_eq_true, if_false, if_true]
  rfl

theorem ofTokens_declared : WithClause.ofTokens parts.sequence = .ok (declared parts) := by
  have size : parts.sequence.size = parts.tail.length + 1 := rfl
  have header : (parts.sequence.cursor 0).token? = some parts.header := Cursor.token?_cursor
  have query : (parts.sequence.cursor 1).token? = some parts.query := Cursor.token?_cursor
  have starts : WithClause.isHeader (parts.sequence.cursor 0) = true := by
    rw [WithClause.isHeader, isWord_of_token? header, readable.header.1, readable.header.2]
    rfl
  have single : parts.sequence.cursors.filter WithClause.isHeader = [parts.sequence.cursor 0] := by
    rw [Cursor.cursors_eq_map, size, List.range_succ_eq_map, List.map_cons, List.filter_cons_of_pos starts]
    congr 1
    refine List.filter_eq_nil_iff.mpr fun cursor member => ?_
    simp only [List.map_map, List.mem_map, List.mem_range, Function.comp_apply] at member
    obtain ⟨place, inside, rfl⟩ := member
    have here : (parts.sequence.cursor (place + 1)).token? = some parts.tail[place] := by
      have split : parts.sequence.tokens.toList = [parts.header] ++ parts.tail := rfl
      rw [← List.getElem?_eq_getElem inside, Nat.add_comm]
      exact token?_after split rfl place
    rw [WithClause.isHeader, isWord_of_token? here]
    have other := readable.onlyHeader _ (List.getElem_mem inside)
    by_cases keyword : parts.tail[place].kind = .keyword
    · simp [other keyword]
    · simp [keyword]
  have notRecursive : (parts.sequence.cursor 1).isWord "RECURSIVE" = false := by
    rw [isWord_of_token? query, readable.query]
    rfl
  have on : (parts.sequence.cursor 0).sequence.size = parts.tail.length + 1 := rfl
  have read : WithClause.readHeader {} (parts.sequence.cursor 0) = .ok (declared parts) := by
    simp only [WithClause.readHeader, Cursor.next_cursor, notRecursive, on, WithClause.readQueries,
      readQuery_declared readable, Bool.false_eq_true, if_false]
  rw [WithClause.ofTokens, single, List.foldlM_cons, read]
  rfl

end Read

end Proofs.DeclaredColumns

end QueryFacts

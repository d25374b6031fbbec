import QueryFacts.Lexer

/-! Lexemes: the items of a text without the gaps between them, with keywords told from
names by their neighbours, and with keywords of several words in one piece. -/

namespace QueryFacts
open Text

structure Lexeme where
  kind : TokenKind
  /-- The text without the quotes of an identifier; strings keep theirs. -/
  value : String
  /-- The quote around an identifier. -/
  quote : Option Char := none
  /-- A gap, or nothing at all, came before. -/
  spaceBefore : Bool := true
  deriving DecidableEq

namespace Lexeme

def isPunctuation (lexeme : Lexeme) (text : String) : Bool := lexeme.kind == .punctuation && lexeme.value == text

def isKeyword (lexeme : Lexeme) : Bool := lexeme.kind == .keyword

/-- The keyword `word`, given in upper case, with its ASCII letters in any case. -/
def isWord (lexeme : Lexeme) (word : String) : Bool :=
  lexeme.isKeyword && lexeme.value.toList.map Char.toUpper == word.toList

/-- `glued` says that no gap came before the next item. Each item is a lexeme of its own: no word has to
be joined to an integer before it, since the lexer has read the two as one word. -/
def ofItemsFrom (glued : Bool) : List Lexer.Item → List Lexeme
  | [] => []
  | .gap :: rest => ofItemsFrom false rest
  | .lexical kind value quote :: rest => ⟨kind, String.ofList value, quote, !glued⟩ :: ofItemsFrom true rest

def ofItems (items : List Lexer.Item) : List Lexeme := ofItemsFrom false items

/-- A keyword next to a dot, or in the place of a function, is a name. A star is a
wildcard only where an item of a list may start. -/
def reclassify (before : Option Lexeme) (lexeme : Lexeme) (after : Option Lexeme) : Lexeme :=
  match lexeme.kind with
  | .keyword =>
    let qualified := before.any (·.kind == .dot) || after.any (·.kind == .dot)
    let called := after.any (·.isPunctuation "(") && Keyword.isFunctionLike (upper lexeme.value)
    if qualified || called then { lexeme with kind := .name } else lexeme
  | .wildcard =>
    let startsItem := before.all fun other =>
      other.kind == .dot || other.isKeyword || other.isPunctuation "," || other.isPunctuation "("
    if startsItem then lexeme else { lexeme with kind := .operator }
  | _ => lexeme

/-- Reclassifies from left to right, each lexeme after the one before it. -/
def reclassifyFrom (before : Option Lexeme) : List Lexeme → List Lexeme
  | [] => []
  | lexeme :: rest =>
    let known := reclassify before lexeme rest.head?
    known :: reclassifyFrom (some known) rest

def reclassifyAll (lexemes : List Lexeme) : List Lexeme := reclassifyFrom none lexemes

def isJoinPrefix (lexeme : Lexeme) : Bool := lexeme.isKeyword && Keyword.isJoinPrefix (upper lexeme.value)

def takesBy (lexeme : Lexeme) : Bool :=
  lexeme.isKeyword && ["ORDER", "GROUP", "PARTITION"].contains (upper lexeme.value)

/-- How many of the lexemes after `first` belong to one keyword with it. -/
def compoundLength (first : Lexeme) (rest : List Lexeme) : Nat :=
  if first.takesBy && rest.head?.any (·.isWord "BY") then 1
  else
    let words := (rest.takeWhile isJoinPrefix).length
    if first.isJoinPrefix && (rest.drop words).head?.any (·.isWord "JOIN") then words + 1 else 0

/-- The lexemes in groups, each of one lexeme or of the words of one keyword. -/
def compounds : List Lexeme → List (List Lexeme)
  | [] => []
  | first :: rest =>
    let more := compoundLength first rest
    (first :: rest.take more) :: compounds (rest.drop more)
termination_by lexemes => lexemes.length
decreasing_by simp only [List.length_drop, List.length_cons]; omega

/-- One lexeme for a group: a keyword of several words has one space between them. -/
def ofCompound : List Lexeme → Lexeme
  | [single] => single
  | words =>
    ⟨.keyword, String.intercalate " " (words.map (·.value)), none, words.head?.any (·.spaceBefore)⟩

def mergeCompounds (lexemes : List Lexeme) : List Lexeme := (compounds lexemes).map ofCompound

/-- Without the semicolons at the end. -/
def dropTerminators (lexemes : List Lexeme) : List Lexeme :=
  (lexemes.reverse.dropWhile (·.isPunctuation ";")).reverse

/-- `CREATE TABLE` or `CREATE TEMPORARY TABLE` come first among the keywords. -/
def isCreateTable (lexemes : List Lexeme) : Bool :=
  match lexemes.filter (·.isKeyword) with
  | create :: second :: rest =>
    create.isWord "CREATE" &&
      if second.isWord "TEMPORARY" then rest.head?.any (·.isWord "TABLE") else second.isWord "TABLE"
  | _ => false

/-- The lexemes of a statement, or what stops the lexer. -/
def ofText (text : List Char) : Except Lexer.Stop (List Lexeme) :=
  (Lexer.items text).map fun items => dropTerminators (mergeCompounds (reclassifyAll (ofItems items)))

end Lexeme

end QueryFacts

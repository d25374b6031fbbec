import QueryFacts.Proofs.BodyLexemes
import QueryFacts.Proofs.NestingRun

/-! Spaces in front of tokens. A token tells whether there was one, but nothing else about the
tokens of a statement depends on it: neither the keywords, nor the parentheses, nor an error. -/

namespace QueryFacts

/-- A token, without what is in front of it. -/
def Token.bare (token : Token) : Token := { token with spaceBefore := true }

def TokenSequence.bare (sequence : TokenSequence) : TokenSequence := ⟨sequence.tokens.map Token.bare⟩

def Nesting.bare (state : Nesting) : Nesting := { state with tokens := state.tokens.map Token.bare }

namespace Token
variable (token : Token)

@[simp] theorem bare_position : token.bare.position = token.position := rfl

@[simp] theorem bare_normalized : token.bare.normalized = token.normalized := rfl

end Token

namespace Nesting
variable (state : Nesting)

@[simp] theorem bare_tokens : state.bare.tokens = state.tokens.map Token.bare := rfl

@[simp] theorem bare_opened : state.bare.opened = state.opened := rfl

@[simp] theorem bare_lastKeyword : state.bare.lastKeyword = state.lastKeyword := rfl

end Nesting

end QueryFacts

namespace QueryFacts.Proofs.SpacedTokens
open Lexer Lexeme Nesting

section Step

variable (limits : Limits) (state : Nesting) (lexeme : Lexeme)

private theorem parenKind_bare : state.bare.parenKind = state.parenKind := by
  unfold parenKind
  simp only [bare_tokens, Array.back?_map]
  cases state.tokens.back? <;> rfl

private theorem tokenOf_bare : state.bare.tokenOf lexeme.bare = (state.tokenOf lexeme).bare := by
  simp only [tokenOf, bare_tokens, Array.size_map]
  rfl

private theorem headersAfter_bare (word : String) : state.bare.headersAfter word = state.headersAfter word := by
  unfold headersAfter
  simp only [bare_tokens, Array.back?_map]
  cases state.tokens.back? <;> rfl

private theorem openParen_bare (token : Token) :
    state.bare.openParen limits token.bare = (state.openParen limits token).map Nesting.bare := by
  unfold openParen
  simp only [parenKind_bare, bare_opened, bare_lastKeyword, Token.bare_position, bare_tokens]
  split
  · rfl
  · simp only [Except.map, Nesting.bare, Array.map_push]
    rfl

private theorem map_modify (tokens : Array Token) (place : Nat) (partner : Option Nat) :
    (tokens.map Token.bare).modify place (fun token => { token with matching := partner }) =
      (tokens.modify place fun token => { token with matching := partner }).map Token.bare := by
  apply Array.ext_getElem?
  intro index
  simp only [Array.getElem?_modify, Array.getElem?_map]
  split
  · cases tokens[index]? <;> rfl
  · rfl

private theorem closeParen_bare (token : Token) :
    state.bare.closeParen token.bare = (state.closeParen token).map Nesting.bare := by
  unfold closeParen
  simp only [bare_opened, Token.bare_position, bare_tokens]
  cases state.opened with
  | nil => rfl
  | cons paren outer =>
    simp only [Except.map, Nesting.bare, Array.map_push, map_modify]
    rfl

private theorem passKeyword_bare (token : Token) :
    state.bare.passKeyword token.bare = (state.passKeyword token).bare := by
  simp only [passKeyword, headersAfter_bare, bare_tokens, bare_opened, bare_lastKeyword, Token.bare_normalized,
    Token.bare_position]
  simp only [Nesting.bare, Array.map_push]
  rfl

/-- A step is the same for a lexeme with or without a space in front of it. -/
theorem step_bare : state.bare.step limits lexeme.bare = (state.step limits lexeme).map Nesting.bare := by
  unfold step
  simp only [bare_isPunctuation, bare_isKeyword, tokenOf_bare, openParen_bare, closeParen_bare]
  split
  next => rfl
  next =>
  split
  next => rfl
  next =>
  split
  next => rw [passKeyword_bare]; rfl
  next => simp only [Except.map, Nesting.bare, Array.map_push]

end Step

private theorem foldlM_bare (limits : Limits) (lexemes : List Lexeme) (state : Nesting) :
    (lexemes.map Lexeme.bare).foldlM (step limits) state.bare =
        (lexemes.foldlM (step limits) state).map Nesting.bare := by
  induction lexemes generalizing state with
  | nil => rfl
  | cons lexeme rest ih =>
    rw [List.map_cons, List.foldlM_cons, List.foldlM_cons, step_bare]
    cases state.step limits lexeme with
    | error error => rfl
    | ok after => exact ih after

private theorem isCreateTable_bare (lexemes : List Lexeme) :
    isCreateTable (lexemes.map Lexeme.bare) = isCreateTable lexemes := by
  have same : isKeyword ∘ Lexeme.bare = isKeyword := rfl
  unfold isCreateTable
  rw [List.filter_map, same]
  cases lexemes.filter isKeyword with
  | nil => rfl
  | cons create rest =>
    cases rest with
    | nil => rfl
    | cons second rest => cases rest <;> rfl

private theorem finish_bare (state : Nesting) : state.bare.finish = state.finish.map TokenSequence.bare := by
  unfold finish
  rw [bare_opened]
  cases state.opened <;> rfl

/-- The tokens of lexemes, and what is wrong with them, do not depend on spaces. -/
theorem annotate_bare (limits : Limits) (lexemes : List Lexeme) :
    annotate limits (lexemes.map Lexeme.bare) = (annotate limits lexemes).map TokenSequence.bare := by
  have start : Nesting.start (lexemes.map Lexeme.bare) = (Nesting.start lexemes).bare := by
    rw [Nesting.start, isCreateTable_bare, Nesting.start, Nesting.bare, Array.map_empty]
  unfold annotate
  rw [start, foldlM_bare]
  cases lexemes.foldlM (step limits) (Nesting.start lexemes) with
  | error error => rfl
  | ok final => exact finish_bare final

private theorem dropTerminators_bare (lexemes : List Lexeme) :
    dropTerminators (lexemes.map Lexeme.bare) = (dropTerminators lexemes).map Lexeme.bare := by
  have same : (fun lexeme : Lexeme => lexeme.isPunctuation ";") ∘ Lexeme.bare = fun lexeme =>
      lexeme.isPunctuation ";" := rfl
  rw [dropTerminators, dropTerminators, ← List.map_reverse, List.dropWhile_map, same, List.map_reverse]

private theorem ofText_eq {text : List Char} {items : List Item} (read : Lexer.items text = .ok items) :
    Lexeme.ofText text = .ok (dropTerminators (mergeCompounds (reclassifyAll (ofItems items)))) := by
  rw [Lexeme.ofText, read]
  rfl

/-- Texts of the same items have the same tokens but for the spaces in front of them. -/
theorem tokenize_bare {text other : List Char} {items others : List Item} (read : Lexer.items text = .ok items)
    (also : Lexer.items other = .ok others) (same : solid items = solid others) (limits : Limits) :
    (tokenize limits text).map TokenSequence.bare = (tokenize limits other).map TokenSequence.bare := by
  obtain ⟨singles, parts⟩ := LexemeItems.ofItemsFrom_items (LexemeItems.items_lexed read) false
  obtain ⟨alsoSingles, alsoParts⟩ := LexemeItems.ofItemsFrom_items (LexemeItems.items_lexed also) false
  have merged := BodyLexemes.merged_bare singles alsoSingles (by rw [parts, alsoParts, same])
  have lexemes : (dropTerminators (mergeCompounds (reclassifyAll (ofItems items)))).map Lexeme.bare =
      (dropTerminators (mergeCompounds (reclassifyAll (ofItems others)))).map Lexeme.bare := by
    rw [← dropTerminators_bare, ← dropTerminators_bare]
    exact congrArg dropTerminators merged
  have count := congrArg List.length lexemes
  rw [List.length_map, List.length_map] at count
  have annotated := congrArg (annotate limits) lexemes
  rw [annotate_bare, annotate_bare] at annotated
  simp only [tokenize, ofText_eq read, ofText_eq also]
  generalize dropTerminators (mergeCompounds (reclassifyAll (ofItems items))) = first at *
  generalize dropTerminators (mergeCompounds (reclassifyAll (ofItems others))) = second at *
  simp only [count]
  by_cases many : second.length > limits.maxTokens
  · rw [if_pos many, if_pos many]
  · rw [if_neg many, if_neg many, annotated]

end QueryFacts.Proofs.SpacedTokens

import QueryFacts.Proofs.NestingRun

/-! Runs of the annotation over the parts of a statement, one after the other: words and
marks without parentheses, keywords, and groups in parentheses. -/

namespace QueryFacts

namespace Nesting
open Proofs.NestingRun

/-- The lexemes lead from the one state to the other. -/
def Runs (limits : Limits) (state : Nesting) (lexemes : List Lexeme) (after : Nesting) : Prop :=
  lexemes.foldlM (step limits) state = .ok after

def push (state : Nesting) (tokens : List Token) : Nesting := { state with tokens := state.tokens ++ tokens.toArray }

/-- The tokens of lexemes that are neither keywords nor parentheses. -/
def flat (state : Nesting) (lexemes : List Lexeme) : List Token :=
  lexemes.mapIdx fun place lexeme => { state.tokenOf lexeme with position := state.tokens.size + place }

/-- The state after an opening parenthesis. -/
def entered (state : Nesting) (opening : Lexeme) : Nesting where
  tokens := state.tokens.push (openingToken state opening)
  opened := ⟨state.tokens.size, state.parenKind, state.lastKeyword⟩ :: state.opened
  lastKeyword := state.lastKeyword
  headers := state.headers
  awaitsColumns := state.awaitsColumns && !(state.parenKind == ParenKind.createTableColumns)

/-- The tokens of a group with these tokens in it; `inside` is the state at its end. -/
def group (state inside : Nesting) (opening closing : Lexeme) (inner : List Token) : List Token :=
  { openingToken state opening with matching := some (state.tokens.size + inner.length + 1) } :: inner
    ++ [closingToken inside closing ⟨state.tokens.size, state.parenKind, state.lastKeyword⟩ state.opened]

/-- The state after such a group. -/
def grouped (state inside : Nesting) (opening closing : Lexeme) (inner : List Token) : Nesting where
  tokens := state.tokens ++ (state.group inside opening closing inner).toArray
  opened := state.opened
  lastKeyword := state.lastKeyword
  headers := inside.headers.dropWhile (state.opened.length < ·)
  awaitsColumns := inside.awaitsColumns

section Runs

variable {limits : Limits} {state middle after : Nesting} {lexeme : Lexeme} {first rest : List Lexeme}

theorem Runs.nil : Runs limits state [] state := rfl

theorem Runs.append (begins : Runs limits state first middle) (ends : Runs limits middle rest after) :
    Runs limits state (first ++ rest) after := by
  rw [Runs, List.foldlM_append, begins]
  exact ends

theorem Runs.cons (move : Move limits state lexeme middle) (ends : Runs limits middle rest after) :
    Runs limits state (lexeme :: rest) after := by
  rw [Runs, List.foldlM_cons, step_ok_iff.mpr move]
  exact ends

theorem Runs.single (move : Move limits state lexeme after) : Runs limits state [lexeme] after :=
  Runs.cons move Runs.nil

end Runs

end Nesting

end QueryFacts

namespace QueryFacts.Proofs.StatementRun
open Nesting NestingRun

variable {limits : Limits} {state middle after : Nesting} {lexeme : Lexeme} {lexemes : List Lexeme}

theorem runs_keyword (keyword : lexeme.kind = .keyword) :
    Runs limits state [lexeme] (state.passKeyword (state.tokenOf lexeme)) := by
  have isKeyword : lexeme.isKeyword = true := by simp [Lexeme.isKeyword, keyword]
  exact Runs.single (.keyword (side?_of_keyword isKeyword) isKeyword)

theorem flat_cons (state : Nesting) (lexeme : Lexeme) (rest : List Lexeme) :
    state.flat (lexeme :: rest) = state.tokenOf lexeme :: (state.push [state.tokenOf lexeme]).flat rest := by
  have next (place : Nat) :
      state.tokens.size + (place + 1) = (state.push [state.tokenOf lexeme]).tokens.size + place := by
    simp only [push, Array.size_append, List.size_toArray, List.length_singleton]
    omega
  simp only [flat, List.mapIdx_cons, next]
  rfl

theorem mem_flat {token : Token} (member : token ∈ state.flat lexemes) :
    ∃ lexeme ∈ lexemes, ∃ position, token = { state.tokenOf lexeme with position } := by
  obtain ⟨place, inside, rfl⟩ := List.mem_mapIdx.mp member
  exact ⟨lexemes[place], List.getElem_mem inside, _, rfl⟩

theorem map_flat {α : Type} {ofToken : Token → α} {ofLexeme : Lexeme → α}
    (same : ∀ lexeme position, ofToken { state.tokenOf lexeme with position } = ofLexeme lexeme) :
    (state.flat lexemes).map ofToken = lexemes.map ofLexeme := by
  refine List.ext_getElem (by simp [flat]) fun index inside _ => ?_
  simp [flat, same]

theorem filterMap_flat {α : Type} {ofToken : Token → Option α} {ofLexeme : Lexeme → Option α}
    (same : ∀ lexeme position, ofToken { state.tokenOf lexeme with position } = ofLexeme lexeme) :
    (state.flat lexemes).filterMap ofToken = lexemes.filterMap ofLexeme := by
  have whole := congrArg (List.filterMap id) (map_flat same : (state.flat lexemes).map ofToken = _)
  rwa [List.filterMap_map, List.filterMap_map] at whole

theorem push_append (state : Nesting) (first rest : List Token) :
    (state.push first).push rest = state.push (first ++ rest) := by
  simp [push]

theorem runs_flat (plain : ∀ lexeme ∈ lexemes, lexeme.side? = none ∧ lexeme.isKeyword = false) :
    Runs limits state lexemes (state.push (state.flat lexemes)) := by
  induction lexemes generalizing state with
  | nil =>
    have same : state.push [] = state := by simp [push]
    exact same ▸ Runs.nil
  | cons lexeme rest ih =>
    obtain ⟨side, free⟩ := plain lexeme List.mem_cons_self
    have pushed :
        { state with tokens := state.tokens.push (state.tokenOf lexeme) } = state.push [state.tokenOf lexeme] := by
      simp [push]
    have whole : state.push (state.flat (lexeme :: rest)) =
        (state.push [state.tokenOf lexeme]).push ((state.push [state.tokenOf lexeme]).flat rest) := by
      rw [flat_cons, push_append, List.singleton_append]
    rw [whole]
    exact Runs.cons (pushed ▸ .plain side free) (ih fun other member => plain other (List.mem_cons_of_mem _ member))

private theorem modify_at {α : Type} (front : List α) (x : α) (rest : List α) (change : α → α) :
    (front ++ x :: rest).modify front.length change = front ++ change x :: rest := by
  induction front with
  | nil => rfl
  | cons y front ih => rw [List.cons_append, List.length_cons, List.modify_succ_cons, ih]; rfl

theorem runs_group {opening closing : Lexeme} {inner : List Token} (opens : opening.side? = some .opening)
    (closes : closing.side? = some .closing) (shallow : state.depth < limits.maxNestingDepth)
    (run : Runs limits (state.entered opening) lexemes middle) (kept : middle.opened = (state.entered opening).opened)
    (tokens : middle.tokens = (state.entered opening).tokens ++ inner.toArray) :
    Runs limits state (opening :: lexemes ++ [closing]) (state.grouped middle opening closing inner) := by
  refine Runs.cons (.opening opens shallow) (Runs.append run ?_)
  have size : middle.tokens.size = state.tokens.size + inner.length + 1 := by
    simp only [tokens, entered, Array.size_append, Array.size_push, List.size_toArray]
    omega
  have changed :
      (middle.tokens.modify state.tokens.size fun opening => { opening with matching := some middle.tokens.size }).push
        (closingToken middle closing ⟨state.tokens.size, state.parenKind, state.lastKeyword⟩ state.opened) =
      state.tokens ++ (state.group middle opening closing inner).toArray := by
    rw [size]
    apply Array.toList_inj.mp
    rw [tokens]
    simp only [entered, group, Array.toList_push, Array.toList_modify, Array.toList_append, List.append_assoc,
      List.singleton_append]
    rw [← Array.length_toList, modify_at]
    simp
  rw [grouped, ← changed]
  exact Runs.single (.closing closes kept)

theorem annotate_of_runs (run : Runs limits (Nesting.start lexemes) lexemes after) (closed : after.opened = []) :
    annotate limits lexemes = .ok ⟨after.tokens⟩ := by
  rw [annotate, run]
  simp only [bind, Except.bind, finish, closed]

end QueryFacts.Proofs.StatementRun

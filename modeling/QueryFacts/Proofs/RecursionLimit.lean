import QueryFacts.Query

/-! What a higher recursion limit changes. Two analyses that differ in the limit only run
side by side, through the bodies of sub-queries and common table expressions at every
depth: either both end alike, or the one under the lower limit ends where it would have
gone one level deeper than it may. So a limit never changes a result, it only refuses one. -/

namespace QueryFacts.Proofs.RecursionLimit

/-- The recursion limit has nothing to do with this result. -/
def Settled {α : Type} (result : Except Error α) : Prop :=
  ∀ reached limit, result ≠ .error (.recursionLimit reached limit)

/-- What a computation gives under a limit, and what it gives under a higher one. -/
inductive Settles {α : Type} (reached limit : Nat) : Except Error α → Except Error α → Prop where
  | exceeded (higher : Except Error α) : Settles reached limit (.error (.recursionLimit reached limit)) higher
  | same {result : Except Error α} (settled : Settled result) : Settles reached limit result result

variable {α β : Type} {reached limit : Nat}

theorem settled_ok (value : α) : Settled (.ok value) := by
  intro _ _ same
  cases same

theorem Settled.error {error : Error} (settled : Settled (.error error : Except Error α)) :
    Settled (.error error : Except Error β) := by
  intro deep most same
  cases same
  exact settled deep most rfl

theorem Settled.map {result : Except Error α} (settled : Settled result) (change : α → β) :
    Settled (result.map change) := by
  cases result with
  | ok value => exact settled_ok _
  | error error => exact settled.error

theorem Settled.bind {result : Except Error α} {next : α → Except Error β} (settled : Settled result)
    (rest : ∀ value, Settled (next value)) : Settled (result >>= next) := by
  cases result with
  | ok value => exact rest value
  | error error => exact settled.error

theorem Settled.foldlM {step : β → α → Except Error β} (each : ∀ state item, Settled (step state item))
    (items : List α) (start : β) : Settled (items.foldlM step start) := by
  induction items generalizing start with
  | nil => exact settled_ok start
  | cons item rest ih =>
    rw [List.foldlM_cons]
    exact (each start item).bind ih

namespace Settles

theorem ok (value : α) : Settles reached limit (.ok value) (.ok value) := .same (settled_ok value)

theorem bind {lower higher : Except Error α} {first second : α → Except Error β}
    (settles : Settles reached limit lower higher)
    (rest : ∀ value, Settles reached limit (first value) (second value)) :
    Settles reached limit (lower >>= first) (higher >>= second) := by
  cases settles with
  | exceeded => exact .exceeded _
  | same settled =>
    cases lower with
    | ok value => exact rest value
    | error error => exact .same settled.error

theorem map {lower higher : Except Error α} (settles : Settles reached limit lower higher) (change : α → β) :
    Settles reached limit (lower.map change) (higher.map change) := by
  cases settles with
  | exceeded => exact .exceeded _
  | same settled => exact .same (settled.map change)

theorem foldlM {first second : β → α → Except Error β}
    (each : ∀ state item, Settles reached limit (first state item) (second state item)) (items : List α) (start : β) :
    Settles reached limit (items.foldlM first start) (items.foldlM second start) := by
  induction items generalizing start with
  | nil => exact ok start
  | cons item rest ih =>
    rw [List.foldlM_cons, List.foldlM_cons]
    exact (each start item).bind ih

/-- A result that is settled under the lower limit is the result. -/
theorem eq_of_settled {lower higher : Except Error α} (settles : Settles reached limit lower higher)
    (settled : Settled lower) : higher = lower := by
  cases settles with
  | exceeded => exact absurd rfl (settled reached limit)
  | same => rfl

theorem eq_of_exceeded {lower higher : Except Error α} (settles : Settles reached limit lower higher) {deep most : Nat}
    (ends : lower = .error (.recursionLimit deep most)) : deep = reached ∧ most = limit := by
  cases settles with
  | exceeded =>
    cases ends
    exact ⟨rfl, rfl⟩
  | same settled => exact absurd ends (settled deep most)

end Settles

section Tokens

theorem settled_finish (state : Nesting) : Settled state.finish := by
  unfold Nesting.finish
  split
  · exact settled_ok _
  · intro _ _ same
    cases same

theorem settled_step (limits : Limits) (state : Nesting) (lexeme : Lexeme) : Settled (state.step limits lexeme) := by
  intro _ _ same
  unfold Nesting.step Nesting.openParen Nesting.closeParen at same
  split at same
  · dsimp only at same
    split at same <;> cases same
  · split at same
    · split at same <;> cases same
    · split at same <;> cases same

theorem settled_queryTokens (limits : Limits) (text : String) : Settled (queryTokens limits text) := by
  unfold queryTokens tokenize
  split
  · intro _ _ same
    cases same
  · split
    · intro _ _ same
      cases same
    · exact (Settled.foldlM (settled_step limits) _ _).bind settled_finish

theorem settled_kind (tokens : TokenSequence) : Settled (StatementKind.ofTokens tokens) := by
  intro _ _ same
  unfold StatementKind.ofTokens at same
  split at same
  · cases same
  · dsimp only at same
    split at same <;> cases same

theorem settled_readQuery (clause : WithClause) (start : Cursor) : Settled (clause.readQuery start) := by
  intro _ _ same
  unfold WithClause.readQuery at same
  split at same
  · cases same
  · dsimp only at same
    split at same
    all_goals
      split at same
      · unfold WithClause.readBody at same
        split at same
        · cases same
        · split at same
          · dsimp only at same
            split at same
            · cases same
            · split at same <;> cases same
          · cases same
      · cases same

theorem settled_readQueries (count : Nat) (clause : WithClause) (start : Cursor) :
    Settled (clause.readQueries count start) := by
  induction count generalizing clause start with
  | zero => exact settled_ok clause
  | succ count ih =>
    have first := settled_readQuery clause start
    rw [WithClause.readQueries]
    split
    next error ends => exact (ends ▸ first).error
    next clause _ => exact settled_ok clause
    next clause next _ => exact ih clause next

theorem settled_clause (tokens : TokenSequence) : Settled (WithClause.ofTokens tokens) :=
  Settled.foldlM (fun clause _ => settled_readQueries _ clause _) _ _

end Tokens

/-- The names that two graphs open are the same, and what they stand for agrees as far as the lower limit goes. -/
def Follow (reached limit : Nat) (first second : NameGraph Error) : Prop :=
  ∀ name, Option.Rel (Settles reached limit) (first.successors name) (second.successors name)

theorem walk_settles {first second : NameGraph Error} (follow : Follow reached limit first second)
    {start other pending opened out : List String}
    {inside : ∀ name ∈ pending, (first.successors name).isSome → name ∈ start ++ first.inner ()}
    {within : ∀ name ∈ pending, (second.successors name).isSome → name ∈ other ++ second.inner ()} :
    Settles reached limit (first.walk start pending opened out inside)
        (second.walk other pending opened out within) := by
  fun_induction NameGraph.walk first start pending opened out inside with
  | case1 =>
    rw [NameGraph.walk]
    exact .ok _
  | case2 opened out name rest _ _ closed _ ih =>
    have step := follow name
    rw [closed] at step
    rw [NameGraph.walk]
    split
    next => exact ih
    next result opening => rw [opening] at step; cases step
  | case3 opened out name rest _ _ result opening seen _ ih =>
    have step := follow name
    rw [opening] at step
    rw [NameGraph.walk]
    split
    next closed => rw [closed] at step; cases step
    next => rw [dif_pos seen]; exact ih
  | case4 opened out name rest _ _ fresh error opening =>
    have step := follow name
    rw [opening] at step
    rw [NameGraph.walk]
    split
    next closed => rw [closed] at step; cases step
    next result known =>
      rw [dif_neg fresh]
      rw [known] at step
      cases step with
      | some settles =>
        cases settles with
        | exceeded => exact .exceeded _
        | same settled => exact .same settled.error
  | case5 opened out name rest _ _ fresh found _ _ opening ih =>
    have step := follow name
    rw [opening] at step
    rw [NameGraph.walk]
    split
    next closed => rw [closed] at step; cases step
    next result known =>
      rw [dif_neg fresh]
      rw [known] at step
      cases step with
      | some settles =>
        cases settles with
        | same => exact ih

/-- The bodies of one statement under two limits. -/
structure Agree (reached limit : Nat) (lower higher : Bodies) : Prop where
  columnLists : lower.columnLists = higher.columnLists
  contains : ∀ name, lower.contains name = higher.contains name
  facts : ∀ name, Settles reached limit (lower.facts? name) (higher.facts? name)

namespace Agree

variable {lower higher : Bodies} (agree : Agree reached limit lower higher)
include agree

theorem lookUp (name column : String) :
    Settles reached limit (lower.lookUp name column) (higher.lookUp name column) := by
  unfold Bodies.lookUp
  rw [agree.columnLists]
  exact (agree.facts name).map _

theorem selectedAt (name : String) (position : Nat) :
    Settles reached limit (lower.selectedAt name position) (higher.selectedAt name position) := (agree.facts name).map _

theorem follow : Follow reached limit lower.graph higher.graph := by
  intro name
  simp only [Bodies.graph]
  cases Text.splitQualified? name with
  | none => exact .none
  | some parts =>
    simp only [Option.bind_some, agree.contains]
    split
    · exact .some (agree.lookUp parts.1 parts.2)
    · exact .none

theorem resolve (name column : String) :
    Settles reached limit (lower.resolve name column) (higher.resolve name column) := by
  have found := agree.lookUp name column
  unfold Bodies.resolve
  generalize lower.lookUp name column = first at found ⊢
  generalize higher.lookUp name column = second at found ⊢
  cases found with
  | exceeded => exact .exceeded _
  | same settled =>
    cases first with
    | error error => exact .same settled.error
    | ok names => exact walk_settles agree.follow

theorem meaning (tableAliases : NameMap String) (spelled : String) :
    Settles reached limit (Column.meaning tableAliases lower spelled) (Column.meaning tableAliases higher spelled) := by
  unfold Column.meaning
  split
  · exact .ok _
  · split
    · exact .ok _
    · rw [agree.contains]
      split
      · exact (agree.resolve _ _).map _
      · exact .ok _

theorem scan (tokens : TokenSequence) (kind : StatementKind) (tableAliases : NameMap String) (aliasNames : List String)
    (declared : List Nat) : Settles reached limit (Column.scan tokens kind tableAliases aliasNames declared lower)
      (Column.scan tokens kind tableAliases aliasNames declared higher) := by
  unfold Column.scan
  split
  · exact .ok _
  · refine Settles.foldlM (fun scan mention => ?_) _ _
    cases mention with
    | aliasName => exact .ok _
    | column spelled => exact (agree.meaning tableAliases spelled).map _

theorem targets (declarations : List AliasDeclaration) (tokens : TokenSequence) (scope : AliasDeclaration.Scope) :
    Settles reached limit (AliasDeclaration.targets declarations tokens scope lower)
      (AliasDeclaration.targets declarations tokens scope higher) := by
  refine Settles.foldlM (fun aliases declaration => ?_) _ _
  unfold AliasDeclaration.addTarget
  split
  · exact .ok _
  · refine Settles.map ?_ _
    unfold AliasDeclaration.columns
    split
    · exact .ok _
    · exact (agree.selectedAt _ _).map _

end Agree

/-- The bodies of a statement agree when their analyses do. -/
theorem agree_ofStatement (tokens : TokenSequence) (clause : WithClause) (subqueries : NameMap String)
    {lower higher : String → Except Error Facts} (each : ∀ text, Settles reached limit (lower text) (higher text)) :
    Agree reached limit (Bodies.ofStatement tokens clause subqueries lower)
      (Bodies.ofStatement tokens clause subqueries higher) := by
  have found (analyze : String → Except Error Facts) (name : String) :
      (Bodies.ofStatement tokens clause subqueries analyze).facts.find? name =
        ((subqueries.entries ++ clause.bodies.entries).lookup name).map fun text => Thunk.mk fun _ => analyze text :=
    NameMap.find?_ofFirstPairs_map _ (fun text => Thunk.mk fun _ => analyze text) name
  refine ⟨rfl, fun name => ?_, fun name => ?_⟩
  · simp only [Bodies.contains, NameMap.contains, found, Option.isSome_map]
  · unfold Bodies.facts?
    rw [found, found]
    cases (subqueries.entries ++ clause.bodies.entries).lookup name with
    | none => exact .ok _
    | some text =>
      have body := each text
      simp only [Option.map_some, Thunk.get]
      generalize lower text = first at body ⊢
      generalize higher text = second at body ⊢
      cases body with
      | exceeded => exact .exceeded _
      | same settled =>
        cases first with
        | ok facts => exact .ok _
        | error error => cases error <;> first | exact .ok _ | exact absurd rfl (settled _ _)

theorem ofTokens_settles (tokens : TokenSequence) (kind : StatementKind) {lower higher : String → Except Error Facts}
    (each : ∀ text, Settles reached limit (lower text) (higher text)) :
    Settles reached limit (Facts.ofTokens tokens kind lower) (Facts.ofTokens tokens kind higher) := by
  unfold Facts.ofTokens
  split
  · change Settles reached limit (.error .createTableAsSelect) (.error .createTableAsSelect)
    exact .same fun _ _ same => by cases same
  · refine Settles.bind (.same (settled_clause tokens)) fun clause => ?_
    have agree := agree_ofStatement tokens clause (Subquery.bodies tokens) each
    refine Settles.bind (agree.scan _ _ _ _ _) fun scan => ?_
    refine Settles.bind (agree.targets _ _ _) fun aliases => ?_
    exact .ok _

theorem statementFacts_settles (limits : Limits) (text : String) {lower higher : String → Except Error Facts}
    (each : ∀ text, Settles reached limit (lower text) (higher text)) :
    Settles reached limit (statementFacts limits text lower) (statementFacts limits text higher) := by
  refine Settles.bind (.same (settled_queryTokens limits text)) fun tokens => ?_
  refine Settles.bind (.same (settled_kind tokens)) fun kind => ?_
  exact ofTokens_settles tokens kind each

/-- Under the lower limit an analysis goes `levels` bodies deeper than `depth`, and no further. -/
theorem factsWithin_settles (limits : Limits) (higher : Nat) {levels more : Nat} (fewer : levels ≤ more) (depth : Nat)
    (text : String) : Settles (depth + levels + 1) limits.maxRecursionDepth (factsWithin limits levels depth text)
      (factsWithin { limits with maxRecursionDepth := higher } more depth text) := by
  induction levels generalizing more depth text with
  | zero =>
    cases more with
    | zero => exact statementFacts_settles limits text fun _ => .exceeded _
    | succ more => exact statementFacts_settles limits text fun _ => .exceeded _
  | succ levels ih =>
    cases more with
    | zero => exact absurd fewer (Nat.not_succ_le_zero levels)
    | succ more =>
      refine statementFacts_settles limits text fun body => ?_
      have deeper := ih (Nat.le_of_succ_le_succ fewer) (depth + 1) body
      rwa [Nat.add_right_comm depth 1 levels] at deeper

/-- Some property of the query is this error instead of a result. -/
inductive Fails (query : Query) (error : Error) : Prop where
  | tokens (found : query.tokens = .error error)
  | kind (found : query.kind = .error error)
  | facts (found : query.facts = .error error)
  | rowLimit (found : query.rowLimit = .error error)
  | values (found : query.values = .error error)
  | assignments (found : query.assignments = .error error)

theorem facts_ofText (text : String) (limits : Limits) : (Query.ofText text limits).facts = factsAt limits 0 text := rfl

theorem settled_values (limits : Limits) (text : String) : Settled (Query.ofText text limits).values := by
  have kind : Settled (Query.ofText text limits).kind := (settled_queryTokens limits text).bind settled_kind
  refine kind.bind fun found => ?_
  split
  · exact (settled_queryTokens limits text).bind fun _ => settled_ok _
  · exact settled_ok _

theorem assignments_settles {limits : Limits} {text : String}
    (facts : Settles reached limit (Query.ofText text limits).facts (Query.ofText text limits).facts) :
    Settles reached limit (Query.ofText text limits).assignments (Query.ofText text limits).assignments := by
  refine Settles.bind (.same (settled_values limits text)) fun values => ?_
  refine Settles.bind facts fun facts => ?_
  split <;> exact .ok _

/-- The recursion limit only refuses: raising it changes no other result, at any depth,
and a query that meets the limit does so one level beyond it. -/
theorem higher_limit_agrees (limits : Limits) (higher : Nat)
    (raised : limits.maxRecursionDepth ≤ higher) (text : String) :
    (∀ depth, (∀ reached limit, factsAt limits depth text ≠ .error (.recursionLimit reached limit)) →
      factsAt { limits with maxRecursionDepth := higher } depth text = factsAt limits depth text) ∧
    ∀ reached limit, Fails (Query.ofText text limits) (.recursionLimit reached limit) →
      reached = limits.maxRecursionDepth + 1 ∧ limit = limits.maxRecursionDepth := by
  refine ⟨fun depth settled => ?_, fun reached limit fails => ?_⟩
  · have fewer : limits.maxRecursionDepth - depth ≤ higher - depth := Nat.sub_le_sub_right raised depth
    exact (factsWithin_settles limits higher fewer depth text).eq_of_settled settled
  · have facts : Settles (limits.maxRecursionDepth + 1) limits.maxRecursionDepth (Query.ofText text limits).facts
        (Query.ofText text limits).facts := by
      have run := factsWithin_settles limits limits.maxRecursionDepth (Nat.le_refl limits.maxRecursionDepth) 0 text
      rwa [Nat.zero_add] at run
    cases fails with
    | tokens found => exact absurd found (settled_queryTokens limits text reached limit)
    | kind found => exact absurd found ((settled_queryTokens limits text).bind settled_kind reached limit)
    | facts found => exact facts.eq_of_exceeded found
    | rowLimit found => exact absurd found ((settled_queryTokens limits text).map _ reached limit)
    | values found => exact absurd found (settled_values limits text reached limit)
    | assignments found => exact (assignments_settles facts).eq_of_exceeded found

theorem limit_of_one_agrees : (1 : Nat) ≤ 2 ∧
    (factsAt { maxRecursionDepth := 1 } 0 "WITH b (x) AS (SELECT a FROM t) SELECT y FROM b").toOption.map
      (·.aliases.entries) = some [("x", .column "a")] ∧
    factsAt { maxRecursionDepth := 2 } 0 "WITH b (x) AS (SELECT a FROM t) SELECT y FROM b" =
      factsAt { maxRecursionDepth := 1 } 0 "WITH b (x) AS (SELECT a FROM t) SELECT y FROM b" ∧
    Fails (Query.ofText "SELECT b.a FROM (SELECT c.a FROM (SELECT a FROM t) c) b" { maxRecursionDepth := 1 })
      (.recursionLimit 2 1) ∧
    ∀ reached limit,
    Fails (Query.ofText "SELECT b.a FROM (SELECT c.a FROM (SELECT a FROM t) c) b" { maxRecursionDepth := 1 })
      (.recursionLimit reached limit) → reached = 2 ∧ limit = 1 := by
  have raised : (1 : Nat) ≤ 2 := by decide
  have analyzed : (factsAt { maxRecursionDepth := 1 } 0 "WITH b (x) AS (SELECT a FROM t) SELECT y FROM b").toOption.map
      (·.aliases.entries) = some [("x", .column "a")] := by decide +kernel
  have refused :
      (Except.tryCatch
        ((factsAt { maxRecursionDepth := 1 } 0 "SELECT b.a FROM (SELECT c.a FROM (SELECT a FROM t) c) b").map
      fun _ => none) fun error => .ok (some error)).toOption = some (some (.recursionLimit 2 1)) := by decide +kernel
  have ends : factsAt { maxRecursionDepth := 1 } 0 "SELECT b.a FROM (SELECT c.a FROM (SELECT a FROM t) c) b" =
      .error (.recursionLimit 2 1) := by
    generalize factsAt { maxRecursionDepth := 1 } 0 "SELECT b.a FROM (SELECT c.a FROM (SELECT a FROM t) c) b" = result
      at refused ⊢
    cases result with
    | ok facts => cases refused
    | error error => rw [Option.some.inj (Option.some.inj refused)]
  refine ⟨raised, analyzed,
    (higher_limit_agrees { maxRecursionDepth := 1 } 2 raised _).1 0 fun reached limit fails => ?_,
    .facts ((facts_ofText _ _).trans ends), (higher_limit_agrees { maxRecursionDepth := 1 } 2 raised _).2⟩
  rw [fails] at analyzed
  cases analyzed

end QueryFacts.Proofs.RecursionLimit

import QueryFacts.Proofs.SelectList

/-! Keywords of several words. JOIN is one keyword with the words that may stand before it,
and only words before JOIN or BY are joined at all. -/

namespace QueryFacts
open Text

namespace Lexeme

/-- The words of a join keyword with some words before JOIN. -/
def joinWords (prefixes : List String) : List Lexeme := (prefixes ++ ["JOIN"]).map fun word => ofKeyword word true

/-- The join keyword in one piece. -/
def joinKeyword (prefixes : List String) : Lexeme := ofKeyword (String.intercalate " " (prefixes ++ ["JOIN"])) true

end Lexeme

/-- The spelling of a join keyword without blanks. -/
def mergedJoin (prefixes : List String) : String := String.join (prefixes ++ ["JOIN"])

/-- A name that is written without quotes and is no keyword, also without the blanks in it. -/
structure IsBareName (name : String) : Prop where
  spelled : isIdentifier name.toList = true
  free : Keyword.isReserved (upper name) = false
  unread : Keyword.isReserved (Keyword.normalForm name) = false

instance (name : String) : Decidable (IsBareName name) :=
  decidable_of_iff (isIdentifier name.toList = true ∧ Keyword.isReserved (upper name) = false ∧
    Keyword.isReserved (Keyword.normalForm name) = false)
    ⟨fun ⟨spelled, free, unread⟩ => ⟨spelled, free, unread⟩, fun ⟨spelled, free, unread⟩ => ⟨spelled, free, unread⟩⟩

theorem IsBareName.unquoted {name : String} (known : IsBareName name) : IsUnquoted name := ⟨known.spelled, known.free⟩

/-- A bare name that spells no join keyword either. -/
structure IsPlainName (name : String) : Prop extends IsBareName name where
  unmerged : ∀ prefixes, (∀ word ∈ prefixes, word ∈ Keyword.joinPrefixes) →
    Keyword.normalForm name ≠ mergedJoin prefixes

end QueryFacts

namespace QueryFacts.Proofs.JoinKeywords
open Text Lexeme SelectList CompoundKeywords

section Compounds

/-- It starts no keyword of several words. -/
def Alone (lexeme : Lexeme) : Prop := lexeme.isJoinPrefix = false ∧ lexeme.takesBy = false

theorem mergeCompounds_alone {part : List Lexeme} (alone : ∀ lexeme ∈ part, Alone lexeme) (rest : List Lexeme) :
    mergeCompounds (part ++ rest) = part ++ mergeCompounds rest := by
  induction part with
  | nil => rfl
  | cons lexeme part ih =>
    obtain ⟨noPrefix, noBy⟩ := alone lexeme List.mem_cons_self
    have later := ih fun other member => alone other (List.mem_cons_of_mem _ member)
    rw [List.cons_append, mergeCompounds_cons (by simp [noBy]) (by simp [noPrefix]), later, List.cons_append]

/-- Without the last words of compounds there are none. -/
theorem mergeCompounds_endless {lexemes : List Lexeme}
    (endless : ∀ lexeme ∈ lexemes, lexeme.isWord "JOIN" = false ∧ lexeme.isWord "BY" = false) :
    mergeCompounds lexemes = lexemes := by
  apply mergeCompounds_of_apart
  apply List.Pairwise.isChain
  apply List.pairwise_of_forall_mem_list
  intro first _ next member
  obtain ⟨noJoin, noBy⟩ := endless next member
  simp [Apart, noJoin, noBy]

private theorem prefix_upper : ∀ word ∈ Keyword.joinPrefixes, Keyword.isJoinPrefix (upper word) = true := by decide

private theorem join_upper : (ofKeyword "JOIN" true).isWord "JOIN" = true ∧ Alone (ofKeyword "JOIN" true) := by
  unfold Alone
  decide

/-- The words of a join keyword become one keyword. -/
theorem mergeCompounds_join {prefixes : List String} (known : ∀ word ∈ prefixes, word ∈ Keyword.joinPrefixes)
    (rest : List Lexeme) :
    mergeCompounds (joinWords prefixes ++ rest) = joinKeyword prefixes :: mergeCompounds rest := by
  cases prefixes with
  | nil =>
    have alone : ∀ lexeme ∈ [ofKeyword "JOIN" true], Alone lexeme := fun lexeme member =>
      List.mem_singleton.mp member ▸ join_upper.2
    exact mergeCompounds_alone alone rest
  | cons first more =>
    let others := more.map fun word => ofKeyword word true
    have each : ∀ lexeme ∈ ofKeyword first true :: others, lexeme.isJoinPrefix = true := by
      intro lexeme member
      obtain ⟨word, inside, rfl⟩ :=
        List.mem_map.mp (show lexeme ∈ (first :: more).map fun word => ofKeyword word true from member)
      rw [isJoinPrefix, ofKeyword, prefix_upper word (known word inside)]
      rfl
    have group := Grouping.ofJoin (List.cons_ne_nil _ _) each join_upper.1 (grouping rest)
    have whole :
        joinWords (first :: more) ++ rest = (ofKeyword first true :: others) ++ ofKeyword "JOIN" true :: rest := by
      simp [joinWords, others]
    rw [whole, mergeCompounds_eq group, List.map_cons]
    congr 1
    have values : (others ++ [ofKeyword "JOIN" true]).map (·.value) = more ++ ["JOIN"] := by
      simp [others, ofKeyword, Function.comp_def]
    obtain ⟨second, tail, same⟩ := List.exists_cons_of_ne_nil (show others ++ [ofKeyword "JOIN" true] ≠ [] by simp)
    rw [same] at values
    rw [List.cons_append, same, ofCompound, List.map_cons, values]
    · rfl
    · intro single same
      cases same

/-- BY is one keyword with the word before it. -/
theorem mergeCompounds_by {first : String} (known : first ∈ ["ORDER", "GROUP", "PARTITION"]) (rest : List Lexeme) :
    mergeCompounds (ofKeyword first true :: ofKeyword "BY" true :: rest) =
        ofKeyword (first ++ " BY") true :: mergeCompounds rest := by
  have words : ∀ word ∈ ["ORDER", "GROUP", "PARTITION"], (ofKeyword word true).takesBy = true := by decide
  have last : (ofKeyword "BY" true).isWord "BY" = true := by decide
  have group := Grouping.ofBy (words first known) last (grouping rest)
  have joined : String.intercalate " " [first, "BY"] = first ++ " BY" := by
    rw [String.intercalate_cons_cons, String.intercalate_singleton, String.append_assoc]
    rfl
  rw [mergeCompounds_eq group, List.map_cons, ← joined]
  rfl

end Compounds

section Spelling

theorem normalForm_append (first rest : String) :
    Keyword.normalForm (first ++ rest) = Keyword.normalForm first ++ Keyword.normalForm rest := by
  simp [Keyword.normalForm, String.ofList_append]

private theorem normalForm_prefix : ∀ word ∈ "JOIN" :: Keyword.joinPrefixes, Keyword.normalForm word = word := by decide

private theorem normalForm_space : Keyword.normalForm " " = "" := by decide

/-- The normal form of a join keyword is its words without the spaces between them. -/
theorem normalized_joinKeyword {prefixes : List String} (known : ∀ word ∈ prefixes, word ∈ Keyword.joinPrefixes) :
    (joinKeyword prefixes).normalized = mergedJoin prefixes := by
  change Keyword.normalForm (String.intercalate " " (prefixes ++ ["JOIN"])) = _
  unfold mergedJoin
  induction prefixes with
  | nil => exact normalForm_prefix "JOIN" List.mem_cons_self
  | cons first more ih =>
    have here := normalForm_prefix first (List.mem_cons_of_mem _ (known first List.mem_cons_self))
    have later := ih fun word member => known word (List.mem_cons_of_mem _ member)
    obtain ⟨second, tail, same⟩ := List.exists_cons_of_ne_nil (show more ++ ["JOIN"] ≠ [] by simp)
    rw [same] at later
    rw [List.cons_append, same, String.intercalate_cons_cons, normalForm_append, normalForm_append,
      normalForm_space, here, later, String.append_empty]
    simp

theorem isJoin_mergedJoin (prefixes : List String) : Keyword.isJoin (mergedJoin prefixes) = true := by
  rw [Keyword.isJoin, List.isSuffixOf_iff_suffix, mergedJoin, String.toList_join, List.flatMap_append]
  exact ⟨prefixes.flatMap String.toList, by simp⟩

private theorem insignificant_joinless : ∀ word ∈ Keyword.insignificant, Keyword.isJoin word = false := by decide

theorem significant_of_isJoin {word : String} (join : Keyword.isJoin word = true) :
    Keyword.isInsignificant word = false := by
  rw [Bool.eq_false_iff]
  intro inside
  rw [insignificant_joinless word (List.contains_iff_mem.mp inside)] at join
  cases join

/-- A word that does not end like a join keyword is none. -/
theorem mergedJoin_ne {word : String} (joinless : Keyword.isJoin word = false) (prefixes : List String) :
    mergedJoin prefixes ≠ word := by
  rintro rfl
  exact absurd ((isJoin_mergedJoin prefixes).symm.trans joinless) (by decide)

theorem isPlainName_of_joinless {name : String}
    (checked : isIdentifier name.toList = true ∧ Keyword.isReserved (upper name) = false ∧
    Keyword.isReserved (Keyword.normalForm name) = false ∧ Keyword.isJoin (Keyword.normalForm name) = false) :
        IsPlainName name :=
  ⟨⟨checked.1, checked.2.1, checked.2.2.1⟩, fun prefixes _ same => mergedJoin_ne checked.2.2.2 prefixes same.symm⟩

theorem undotted_joinKeyword {prefixes : List String} (known : ∀ word ∈ prefixes, word ∈ Keyword.joinPrefixes) :
    '.' ∉ (joinKeyword prefixes).value.toList := by
  have words : ∀ word ∈ Keyword.joinPrefixes, '.' ∉ word.toList := by decide
  change '.' ∉ (String.intercalate " " (prefixes ++ ["JOIN"])).toList
  induction prefixes with
  | nil => decide
  | cons first more ih =>
    have later := ih fun word member => known word (List.mem_cons_of_mem _ member)
    obtain ⟨second, tail, same⟩ := List.exists_cons_of_ne_nil (show more ++ ["JOIN"] ≠ [] by simp)
    rw [same] at later
    rw [List.cons_append, same, String.intercalate_cons_cons, String.toList_append,
      String.toList_append, List.mem_append, List.mem_append, not_or, not_or]
    exact ⟨⟨words first (known first List.mem_cons_self), by decide⟩, later⟩

end Spelling

end QueryFacts.Proofs.JoinKeywords

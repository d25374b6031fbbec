import QueryFacts.Main
import QueryFacts.Proofs.Parenthesis
import QueryFacts.Proofs.NestingRun
import QueryFacts.Proofs.WellNested
import QueryFacts.Proofs.SignificantKeyword
import QueryFacts.Proofs.RowLimits
import QueryFacts.Proofs.StandaloneBody
import QueryFacts.Proofs.ItemText
import QueryFacts.Proofs.NormalizedText
import QueryFacts.Proofs.Reread
import QueryFacts.Proofs.LexemeItems
import QueryFacts.Proofs.ItemNeighbours
import QueryFacts.Proofs.BodyLexemes
import QueryFacts.Proofs.Acceptance
import QueryFacts.Proofs.WrittenBody
import QueryFacts.Proofs.Unfolding
import QueryFacts.Proofs.AliasSubstitution
import QueryFacts.Proofs.BodyTraversal
import QueryFacts.Proofs.CoherentFacts
import QueryFacts.Proofs.ColumnList
import QueryFacts.Proofs.RecursionLimit
import QueryFacts.Proofs.Signs
import QueryFacts.Proofs.Places
import QueryFacts.Proofs.Selections
import QueryFacts.Proofs.Selections.Signs
import QueryFacts.Proofs.Selections.Extraction
import QueryFacts.Proofs.MeantColumns
import QueryFacts.Proofs.Selections.Statement
import QueryFacts.Proofs.NestedSelect
import QueryFacts.Proofs.CommonTables
import QueryFacts.Proofs.QueryChain
import QueryFacts.Proofs.Selections.LabelColumns
import QueryFacts.Proofs.Lineage
import QueryFacts.Proofs.FromClauses
import QueryFacts.Proofs.Spots
import QueryFacts.Proofs.TableSpots
import QueryFacts.Proofs.Unnested
import QueryFacts.Proofs.FromTables
import QueryFacts.Proofs.CommaAfterCondition
import QueryFacts.Proofs.Phrases
import QueryFacts.Proofs.PhraseTables
import QueryFacts.Proofs.TableDefinitions
import QueryFacts.Proofs.ValueSpots
import QueryFacts.Proofs.Upserts
import QueryFacts.Proofs.ClauseColumns
import QueryFacts.Proofs.InsertTargets
import QueryFacts.Proofs.LabelledItems
import QueryFacts.Proofs.InsertedSelections
import QueryFacts.Proofs.Union
import QueryFacts.Proofs.RowInsertions
import QueryFacts.Proofs.Outcomes
import QueryFacts.Proofs.Replacement
import QueryFacts.Proofs.LikeFolding
import QueryFacts.Proofs.LiteralMasking
import QueryFacts.Proofs.CommentRemoval
import QueryFacts.Proofs.NormalSegments
import QueryFacts.Proofs.StatementSplit
import QueryFacts.Proofs.WithStatements.Clauses
import QueryFacts.Proofs.QuotedColumns
import QueryFacts.Proofs.LabelledExpressions
import QueryFacts.Proofs.CompoundKeywords
import QueryFacts.Proofs.SubqueryListing
import QueryFacts.Proofs.Segmentation
import QueryFacts.Proofs.StrippedText
import QueryFacts.Proofs.CreatedColumns
import QueryFacts.Proofs.InsertedRows
import QueryFacts.Proofs.CallArguments
import QueryFacts.Proofs.ListFolding
import QueryFacts.Proofs.Multiplication
import QueryFacts.Proofs.TickedText
import QueryFacts.Proofs.TickedStatements
import QueryFacts.Proofs.TickedColumns
import QueryFacts.Proofs.FileDecoding
import QueryFacts.Proofs.FileReports

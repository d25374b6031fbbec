import Mathlib.Data.List.Forall2
import QueryFacts.Report

/-! The reports on many files. Whether one worker takes the files in turn or several share them,
the reports are those of each file one after another, or there is the error of the first file that
has one. What the workers do is only known from the results that they gather, which stand in the
order of the inputs. -/

namespace QueryFacts

/-- The result at a place is that of the input at this place, whichever worker came to it when. -/
def Workers.KeepsOrder (workers : Workers) : Prop :=
  ∀ {α β : Type} (work : α → β) (inputs : List α) (index : Nat), (workers.gather work inputs)[index]? =
    inputs[index]?.map work

namespace Report

/-- A way to report on files gives the reports of each file one after another if all have some, and
otherwise the error of the first file without. -/
structure Batch (limits : Limits) (tree : FileTree) (reportAll : List String → Except Error (List Report)) : Prop where
  succeeds : ∀ paths reports, reportAll paths = .ok reports ↔
    ∃ each, List.Forall₂ (fun path own => ofFile limits tree path = .ok own) paths each ∧ reports = each.flatten
  fails : ∀ paths error, reportAll paths = .error error ↔ ∃ before path after, paths = before ++ path :: after ∧
    (∀ earlier ∈ before, ∃ own, ofFile limits tree earlier = .ok own) ∧ ofFile limits tree path = .error error

/-- The reports on a file are on its statements, one on each in their order, and each depends on
nothing but its statement, the file that this is from and the limits. -/
structure OfStatements (limits : Limits) (tree : FileTree) (path : String) (reports : List Report) : Prop where
  statements : ∃ text, tree.readText path = .ok text ∧ reports.map (·.sql) = (splitStatements text).map String.ofList
  alone : ∀ report ∈ reports, report.source = some path ∧ report = ofStatement limits report.source report.sql

end Report

namespace Proofs.FileReports
open Report

section Appending

variable {ε α β : Type} {work : α → Except ε (List β)}

/-- What a loop over the inputs does that puts each result behind the ones before it. -/
def appendAll (work : α → Except ε (List β)) (inputs : List α) (start : List β) : Except ε (List β) :=
  inputs.foldlM (fun whole input => do return whole ++ (← work input)) start

theorem appendAll_cons_ok {input : α} {inputs : List α} {start own : List β} (first : work input = .ok own) :
    appendAll work (input :: inputs) start = appendAll work inputs (start ++ own) := by
  rw [appendAll, List.foldlM_cons, first]
  rfl

theorem appendAll_cons_error {input : α} {inputs : List α} {start : List β} {error : ε}
    (first : work input = .error error) :
    appendAll work (input :: inputs) start = .error error := by
  rw [appendAll, List.foldlM_cons, first]
  rfl

theorem appendAll_ok_iff {inputs : List α} {start whole : List β} : appendAll work inputs start = .ok whole ↔
    ∃ each, List.Forall₂ (fun input own => work input = .ok own) inputs each ∧ whole = start ++ each.flatten := by
  induction inputs generalizing start with
  | nil =>
    constructor
    · intro ends
      obtain rfl := Except.ok.inj ends
      exact ⟨[], .nil, (List.append_nil start).symm⟩
    · rintro ⟨each, none, rfl⟩
      obtain rfl := List.forall₂_nil_left_iff.mp none
      exact congrArg Except.ok (List.append_nil start).symm
  | cons input rest ih =>
    cases first : work input with
    | error error =>
      rw [appendAll_cons_error first]
      constructor
      · intro ends
        cases ends
      · rintro ⟨each, all, -⟩
        obtain ⟨own, others, here, -⟩ := List.forall₂_cons_left_iff.mp all
        cases first.symm.trans here
    | ok own =>
      rw [appendAll_cons_ok first, ih]
      constructor
      · rintro ⟨others, all, rfl⟩
        exact ⟨own :: others, .cons first all, by rw [List.flatten_cons, List.append_assoc]⟩
      · rintro ⟨each, all, rfl⟩
        obtain ⟨found, others, here, later, rfl⟩ := List.forall₂_cons_left_iff.mp all
        obtain rfl : own = found := Except.ok.inj (first.symm.trans here)
        exact ⟨others, later, by rw [List.flatten_cons, List.append_assoc]⟩

theorem appendAll_error_iff {inputs : List α} {start : List β} {error : ε} :
    appendAll work inputs start = .error error ↔
    ∃ before input after, inputs = before ++ input :: after ∧ (∀ earlier ∈ before, ∃ own, work earlier = .ok own) ∧
      work input = .error error := by
  induction inputs generalizing start with
  | nil =>
    constructor
    · intro ends
      cases ends
    · rintro ⟨before, input, after, none, -⟩
      simp at none
  | cons input rest ih =>
    cases first : work input with
    | error reason =>
      rw [appendAll_cons_error first]
      constructor
      · intro ends
        obtain rfl := Except.error.inj ends
        exact ⟨[], input, rest, rfl, nofun, first⟩
      · rintro ⟨before, other, after, split, clear, fails⟩
        rcases List.cons_eq_append_iff.mp split with ⟨rfl, same⟩ | ⟨others, rfl, -⟩
        · obtain ⟨rfl, -⟩ := List.cons.inj same
          exact first.symm.trans fails
        · obtain ⟨own, succeeds⟩ := clear input List.mem_cons_self
          cases first.symm.trans succeeds
    | ok own =>
      rw [appendAll_cons_ok first, ih]
      constructor
      · rintro ⟨before, other, after, rfl, clear, fails⟩
        refine ⟨input :: before, other, after, rfl, ?_, fails⟩
        intro earlier member
        rcases List.mem_cons.mp member with rfl | later
        · exact ⟨own, first⟩
        · exact clear earlier later
      · rintro ⟨before, other, after, split, clear, fails⟩
        rcases List.cons_eq_append_iff.mp split with ⟨rfl, same⟩ | ⟨others, rfl, same⟩
        · obtain ⟨rfl, -⟩ := List.cons.inj same
          cases first.symm.trans fails
        · exact ⟨others, other, after, same, fun earlier member => clear earlier (List.mem_cons_of_mem _ member), fails⟩

end Appending

section Shared

variable {workers : Workers} (keeps : workers.KeepsOrder) {limits : Limits} {tree : FileTree}

include keeps in
theorem gather_eq_map {α β : Type} (work : α → β) (inputs : List α) : workers.gather work inputs = inputs.map work := by
  apply List.ext_getElem?
  intro index
  rw [keeps work inputs index, List.getElem?_map]

theorem ofFilesInTurn_eq (paths : List String) :
    ofFilesInTurn limits tree paths = appendAll (ofFile limits tree) paths [] := rfl

include keeps in
/-- The loop over the results of all files ends as the one does that reads the files itself. -/
theorem ofFilesShared_eq (paths : List String) :
    ofFilesShared workers limits tree paths = ofFilesInTurn limits tree paths := by
  rw [ofFilesShared, gather_eq_map keeps, List.foldlM_map]
  rfl

include keeps in
theorem ofFilesWith_eq (paths : List String) :
    ofFilesWith workers limits tree paths = ofFilesInTurn limits tree paths := by
  unfold ofFilesWith
  split
  · exact ofFilesShared_eq keeps paths
  · rfl

theorem batch_inTurn : Batch limits tree (ofFilesInTurn limits tree) where
  succeeds paths reports := by
    rw [ofFilesInTurn_eq, appendAll_ok_iff]
    simp only [List.nil_append]
  fails paths error := by rw [ofFilesInTurn_eq, appendAll_error_iff]

theorem ofStatements_ofFile {path : String} {reports : List Report} (read : ofFile limits tree path = .ok reports) :
    OfStatements limits tree path reports := by
  unfold ofFile at read
  cases content : tree.readText path with
  | error error => rw [content] at read; cases read
  | ok text =>
    rw [content] at read
    obtain rfl : ofScript limits (some path) text = reports := Except.ok.inj read
    refine ⟨⟨text, content, ?_⟩, ?_⟩
    · rw [ofScript, List.map_map]
      rfl
    · intro report member
      obtain ⟨sql, -, rfl⟩ := List.mem_map.mp member
      exact ⟨rfl, rfl⟩

/-- Files that workers share are reported on as files that are taken in turn, and so are statements. -/
theorem ofFilesWith_batch {workers : Workers} (keeps : workers.KeepsOrder) (limits : Limits) (tree : FileTree) :
    (∀ paths, ofFilesShared workers limits tree paths = ofFilesInTurn limits tree paths) ∧
      Batch limits tree (ofFilesWith workers limits tree) ∧
      (∀ path reports, ofFile limits tree path = .ok reports → OfStatements limits tree path reports) ∧
      ∀ queries, ofQueriesWith workers limits queries = queries.map (ofStatement limits none) := by
  have same : ofFilesWith workers limits tree = ofFilesInTurn limits tree := funext (ofFilesWith_eq keeps)
  refine ⟨ofFilesShared_eq keeps, ?_, fun path reports => ofStatements_ofFile, ?_⟩
  · rw [same]
    exact batch_inTurn
  · intro queries
    rw [ofQueriesWith, gather_eq_map keeps, ite_self]

/-- Two workers with one half of the files each. The file that is missing first is in the first
half, and there is one more in the second. -/
theorem ofFilesWith_halves : ∃ workers : Workers, workers.KeepsOrder ∧
    let tree : FileTree := { files := [(["a.sql"], [83, 69, 76, 69, 67, 84, 32, 97])] }
    ofFilesWith workers {} tree (List.replicate 2 "a.sql" ++ "b.sql" :: List.replicate 5 "a.sql" ++ ["c.sql"]) =
        .error (.unreadableFile "b.sql" .missing) ∧
      ofFilesWith workers {} tree (List.replicate 9 "a.sql") =
        .ok (List.replicate 9 (ofStatement {} (some "a.sql") "SELECT a")) ∧
      ofQueriesWith workers {} (List.replicate 9 "SELECT a") = List.replicate 9 (ofStatement {} none "SELECT a") := by
  let halves : Workers :=
    ⟨fun work inputs => (inputs.take (inputs.length / 2)).map work ++ (inputs.drop (inputs.length / 2)).map work⟩
  have keeps : halves.KeepsOrder := by
    intro α β work inputs index
    have whole : halves.gather work inputs = inputs.map work := by
      rw [← List.take_append_drop (inputs.length / 2) inputs, List.map_append, List.take_append_drop]
    rw [whole, List.getElem?_map]
  let tree : FileTree := { files := [(["a.sql"], [83, 69, 76, 69, 67, 84, 32, 97])] }
  have read : tree.readText "a.sql" = .ok "SELECT a".toList := by decide +kernel
  have missing : tree.readText "b.sql" = .error (.unreadableFile "b.sql" .missing) := by decide +kernel
  have split : splitStatements "SELECT a".toList = ["SELECT a".toList] := by decide +kernel
  have here : ofFile {} tree "a.sql" = .ok [ofStatement {} (some "a.sql") "SELECT a"] := by
    rw [ofFile, read, Except.map, ofScript, split]
    rfl
  obtain ⟨-, batch, -, queries⟩ := ofFilesWith_batch keeps {} tree
  refine ⟨halves, keeps, ?_, ?_, ?_⟩
  · apply (batch.fails _ _).mpr
    refine ⟨List.replicate 2 "a.sql", "b.sql", List.replicate 5 "a.sql" ++ ["c.sql"], rfl, ?_, ?_⟩
    · intro earlier member
      obtain rfl := List.eq_of_mem_replicate member
      exact ⟨_, here⟩
    · rw [ofFile, missing]
      rfl
  · apply (batch.succeeds _ _).mpr
    refine ⟨List.replicate 9 [ofStatement {} (some "a.sql") "SELECT a"], ?_, rfl⟩
    simp [List.replicate, here]
  · rw [queries]
    rfl

end Shared

end Proofs.FileReports

end QueryFacts

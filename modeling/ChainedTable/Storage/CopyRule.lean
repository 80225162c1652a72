import ChainedTable.Storage

/-!
# ChainedTable.Storage.CopyRule

Copy functions on texts, given as data.

A `CopyRule` names the texts that find no storage and those that are declined.
Every other text is stored after an edit. So what an entry holds need not be
what the caller passed: a table hashes the caller's key, and compares with
what it stored.
-/

namespace ChainedTable

/-- What a copy does to a text. -/
inductive TextEdit where
  /-- Nothing. -/
  | keep
  /-- The letters `a` to `z` become capitals. -/
  | capitals
  /-- The first three characters remain. -/
  | firstThree
  /-- The text is written twice. -/
  | twice
deriving DecidableEq, Repr

/-- The edited text. -/
def TextEdit.run (text : String) : TextEdit → String
  | keep => text
  | capitals => text.toUpper
  | firstThree => String.ofList (text.toList.take 3)
  | twice => text ++ text

/-- A copy function on texts. -/
structure CopyRule where
  /-- What is done to a text that is copied. -/
  edit : TextEdit := .keep
  /-- Texts for which no storage can be had. -/
  unstorable : List String := []
  /-- Texts that are declined. -/
  declined : List String := []
deriving DecidableEq, Repr

/-- Copies a text; a text in both lists finds no storage. -/
def CopyRule.copy (rule : CopyRule) (source : String) : Except Failure String :=
  if source ∈ rule.unstorable then .error .storage
  else if source ∈ rule.declined then .error (.invalid (.declined "copy refused"))
  else .ok (rule.edit.run source)

/-- Texts copied by a rule. -/
def StoragePolicy.ruled {ε : Type} (rule : CopyRule) : StoragePolicy ε String String :=
  .copying rule.copy id

end ChainedTable

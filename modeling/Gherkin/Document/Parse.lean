import Gherkin.Document.Parser.Block
import Gherkin.Line.Classify

/-! The document of a text. The language header is looked for among the blank lines and comments
that open the text; it decides the dialect in which every line is then classified, and any later
language line is a comment. -/

namespace Gherkin.Document

/-- The language header among the blank lines and comments that open a document. -/
def openingLanguage? : List Line → Option (Nat × Text)
  | [] => none
  | l :: ls =>
    match l.kind with
    | .blank | .comment => openingLanguage? ls
    | .language code => some (l.number, code)
    | _ => none

/-- A language line that is not the document's header counts as a comment. -/
def demote (header : Option Nat) (l : Line) : Line :=
  match l.kind with
  | .language _ => if some l.number = header then l else { l with kind := .comment }
  | _ => l

/-- The lines of a text in a dialect; `header` is the number of the language header. -/
def linesIn (d : Dialect) (header : Option Nat) (source : Text) : List Line :=
  (d.vocabulary.classify source).map (demote header)

/-- The document of a text, read in the dialect of its language header, or in that of `code` when it
has none. -/
def parse (code source : Text) : Except Failure Document :=
  match Dialect.get? code with
  | none => .error ⟨1, .unsupported code⟩
  | some fallback =>
    match openingLanguage? (fallback.vocabulary.classify source) with
    | none => Parser.document code (linesIn fallback none source)
    | some (number, declared) =>
      match Dialect.get? declared with
      | none => .error ⟨number, .unsupported declared⟩
      | some d => Parser.document declared (linesIn d (some number) source)

end Gherkin.Document

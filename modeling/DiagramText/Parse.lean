import DiagramText.Diagnostic
import DiagramText.Registry

/-!
# Parsing documents

A document becomes a model in steps, each of which may reject it: its kind is found out unless it is
given, the grammar of the kind parses it, its syntax tree is read, and the model is checked for
references to something that nothing declares.
-/

namespace DiagramText

/-- Choices about parsing. -/
structure ParseOptions where
  /-- Whether a model with a reference to something undeclared is rejected. -/
  checkReferences : Bool := true
  /-- Whether blanks at the end of a document are left out. -/
  trimTrailing : Bool := true
  /-- How many references of a grammar the stack lets be nested inside another one. -/
  nesting : Nat
deriving DecidableEq, Inhabited

/-- Why a document is rejected. -/
inductive Rejection where
  | unknownKind (firstLine : Option String)
  | unregistered (kind : Kind)
  | malformed (d : Diagnostic)
  | unreadable (kind : Kind) (fault : Fault kind.dialect.Fallacy)
  | inconsistent (kind : Kind) (issue : Issue)

namespace Rejection

/-- The message about what a model of a kind cannot be made of. -/
def transformMessage (kind : Kind) (message : String) : String :=
  kind.id ++ " transform error: " ++ message

/-- The reason in words. -/
def message : Rejection → String
  | unknownKind (some line) => "Unknown diagram type: no dialect matches '" ++ line ++ "'"
  | unknownKind none => "Unknown diagram type: input has no content"
  | unregistered kind => "No dialect registered for diagram type: " ++ kind.id
  | malformed d => d.message
  | unreadable kind fault => transformMessage kind fault.cause.message
  | inconsistent kind issue => transformMessage kind issue.message

end Rejection

/-- The model with this content, if it passes the checks that the options ask for. -/
def checkedModel (options : ParseOptions) (kind : Kind) (content : kind.dialect.Content) :
    Except Rejection Model :=
  let model : Model := ⟨kind, content⟩
  match if options.checkReferences then model.issues.find? Issue.isDangling else none with
  | some issue => .error (.inconsistent kind issue)
  | none => .ok model

/-- The part of a document that is parsed. -/
def sourceOf (options : ParseOptions) (input : String) : String :=
  if options.trimTrailing then String.ofList (Chars.trimEnd input.toList) else input

/-- The model of a document of a kind. -/
def parseAs (registry : Registry) (options : ParseOptions) (kind : Kind) (input : String) :
    Except Rejection Model :=
  if registry.contains kind then
    let source := sourceOf options input
    match kind.dialect.grammar.parse (options.nesting + 1) source with
    | .error failure => .error (.malformed (.locate kind source failure))
    | .ok tree =>
      match kind.dialect.read tree with
      | .error fault => .error (.unreadable kind fault)
      | .ok content => checkedModel options kind content
  else .error (.unregistered kind)

/-- The model of a document, whose kind its first significant line tells. -/
def parse (registry : Registry) (options : ParseOptions) (input : String) :
    Except Rejection Model :=
  match registry.detect input with
  | .error line => .error (.unknownKind line)
  | .ok kind => parseAs registry options kind input

end DiagramText

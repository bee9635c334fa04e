import BindlessHlsl.Attribute.Basic

/-!
Why a shader is rejected. A cause says what is wrong, a failure also where in its file, and a
rejection also in which file.
-/

namespace BindlessHlsl

/-- What should have stood where something else stands. -/
inductive Expectation where
  | attributeName
  | argumentName
  | argumentEquals
  | argumentValue
  | argumentSeparator
  | closingBracket
  | contentPath
  | bindGroupName
  | includePath
  | elementType
  | closingAngle
  | resourceName
  | functionEnd
  | samplerEnd
  | samplerField
  | samplerValue
  | samplerSeparator
  | structEnd
  | memberType
  | memberName
  | memberEnd
  | closingParen
  | memberFunctionBody
  | memberFunctionEnd
  deriving DecidableEq, Repr

/-- The text of an expectation inside messages. -/
def Expectation.text : Expectation → String
  | attributeName => "an attribute name"
  | argumentName => "an argument name"
  | argumentEquals => "'='"
  | argumentValue => "an argument value"
  | argumentSeparator => "',' or ')'"
  | closingBracket => "']'"
  | contentPath => "a quoted content path"
  | bindGroupName => "a quoted bind group name"
  | includePath => "a quoted include path"
  | elementType => "a generic element type"
  | closingAngle => "'>'"
  | resourceName => "a resource name"
  | functionEnd => "'\x7d' closing the function body"
  | samplerEnd => "'\x7d' closing the sampler"
  | samplerField => "a sampler field name"
  | samplerValue => "a sampler field value"
  | samplerSeparator => "',' or '\x7d'"
  | structEnd => "'\x7d' closing the struct"
  | memberType => "a struct member type"
  | memberName => "a struct member name"
  | memberEnd => "';' after the struct member"
  | closingParen => "')'"
  | memberFunctionBody => "a member function body"
  | memberFunctionEnd => "'\x7d' closing the member function"

/-- Where an unknown word was met. -/
inductive WordPosition where
  | attributeName
  | attributeArgument
  | samplerPreset
  | samplerField
  | value
  deriving DecidableEq, Repr

/-- The text of a position inside messages. -/
def WordPosition.text : WordPosition → String
  | attributeName => "attribute"
  | attributeArgument => "attribute argument"
  | samplerPreset => "sampler preset"
  | samplerField => "sampler field"
  | value => "value"

/-- What is wrong. -/
inductive Cause where
  | unknownKeyword (word : String) (position : WordPosition)
  | unexpectedEnd (what : Expectation)
  | expected (what : Expectation)
  | duplicateBindGroup (name : String)
  | undeclaredBindGroup (name : String)
  | pathAlreadySet (path : String)
  | pathOutsideRoot
  | invalidAttribute (kind : AttributeKind) (target : Target)
  | missingArgument (kind : AttributeKind) (argument : String)
  | unexpectedArguments (kind : AttributeKind)
  | duplicateArgument (name : String)
  | missingSamplerValue (field : String)
  | invalidValue (name value : String)
  | unresolvedAttributes (kinds : List AttributeKind)
  | duplicateStruct (name : String)
  | constantsOverflow (size budget : UInt32)
  | constantsStructInInclude (name : String)
  | includeNotFound (path : String)
  | includeDepthExceeded (path : String) (limit : Nat)
  | includeUnreadable (path message : String)
  deriving DecidableEq, Repr

/-- The text of a cause. -/
def Cause.message : Cause → String
  | unknownKeyword word position => s!"unknown {position.text} '{word}'"
  | unexpectedEnd what => s!"unexpected end of file, expected {what.text}"
  | expected what => s!"expected {what.text}"
  | duplicateBindGroup name => s!"bind group '{name}' is already declared"
  | undeclaredBindGroup name =>
    s!"bind group '{name}' is used before being declared with #pragma bindgroup"
  | pathAlreadySet path => s!"#pragma path is already set to '{path}'"
  | pathOutsideRoot => "#pragma path may only appear in the root source file"
  | invalidAttribute kind target =>
    s!"attribute '{Keyword.word kind}' is not valid on {target.text}"
  | missingArgument kind argument =>
    s!"attribute '{Keyword.word kind}' is missing argument '{argument}'"
  | unexpectedArguments kind =>
    s!"attribute '{Keyword.word kind}' does not take arguments"
  | duplicateArgument name => s!"argument '{name}' is given more than once"
  | missingSamplerValue field => s!"sampler field '{field}' is missing '='"
  | invalidValue name value => s!"'{value}' is not a valid value for '{name}'"
  | unresolvedAttributes kinds =>
    let titles := ", ".intercalate (kinds.map AttributeKind.title)
    s!"attributes [{titles}] are not attached to any declaration"
  | duplicateStruct name => s!"struct '{name}' is already defined"
  | constantsOverflow size budget =>
    s!"user constants need {size} bytes which exceeds the {budget} byte push constant budget"
  | constantsStructInInclude name =>
    s!"constants struct '{name}' is defined in an include and would be emitted twice"
  | includeNotFound path => s!"could not find include '{path}' within the search directories"
  | includeDepthExceeded path limit =>
    s!"include '{path}' exceeds the maximum include depth of {limit}"
  | includeUnreadable path message => s!"failed to read include '{path}': {message}"

/-- What is wrong and where in its file. -/
structure Failure where
  span : Span
  cause : Cause
  deriving DecidableEq, Repr

/-- A failure at a single place. -/
def Failure.at (place : Location) (cause : Cause) : Failure := ⟨.point place, cause⟩

/-- What is wrong, where and in which file. -/
structure Rejection where
  file : String
  span : Span
  cause : Cause
  deriving DecidableEq, Repr

/-- A failure in a file. -/
def Failure.inFile (f : Failure) (file : String) : Rejection := ⟨file, f.span, f.cause⟩

/-- The text of a rejection. -/
def Rejection.message (r : Rejection) : String := s!"{r.file}{r.span.text}: {r.cause.message}"

end BindlessHlsl

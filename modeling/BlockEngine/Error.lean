import BlockEngine.Opcode

/-!
# Errors of the engine

* `EngineError` : why loading or running a block graph failed;
* `EngineError.atBlock` : the error as raised in a block, of nested blocks the innermost;
* `EngineError.rootCause` : the error without its block;
* `EngineError.message` : its text.

The text of a JSON syntax error and of a pattern error is not part of the engine's contract; the
constructors say that there was one.
-/

namespace BlockEngine

/-- Why a document or a block in it is malformed. -/
inductive GraphFault where
  /-- The content is no JSON text of the expected shape. -/
  | notJson
  /-- A document or block has the wrong shape. -/
  | shape (reason : String)
  | noOpcode (block : String)
  | noTopLevel (block : String)
  | fieldNotArray (field : String)
  | inputNotArray (input block : String)
  | dangling (block : String)
  | blockNotFound (block : String)
  | tooDeep (limit : Nat) (block : String)
  | callWithoutSignature (block : String)
  | procedureWithoutSignature (block : String)
deriving DecidableEq

/-- Why an input, or a field read like one, is malformed. -/
inductive InputFault where
  | missingTag
  | unknownTag (code : Int)
  | noValue
  | unexpectedPayload (json : String)
  | noPrimitiveKind
  | unknownPrimitiveKind (ordinal : Nat)
  | absent
  | noMenuBlock
  | menuValueNotFound
  | notMember (item members : String)
  | entityNotFound (id : String)
  | unknownMathFunction (name : String)
  | unknownTimeUnit (name : String)
  | unknownOperator (name : String)
  | noSourceBlock
deriving DecidableEq

/-- Why a block's own work failed. -/
inductive BlockFault where
  | plain (text : String)
  | invalidPattern (pattern : String)
  | waitOutOfRange (limit seconds : Int)
  | procedureNotListening (signature : String)
  | procedureFailed (signature reason : String)
deriving DecidableEq

/-- Why loading or running a block graph failed. -/
inductive EngineError where
  | malformedGraph (fault : GraphFault)
  | unknownExtension (extension : String)
  | unknownOpcode (opcode : Opcode)
  | malformedInput (input : String) (fault : InputFault)
  | unresolvedVariable (name id : String)
  | invalidNumericInput (input value : String)
  | unsupportedMenuType (target : String)
  | lockNotFound (tab key : String)
  | lockReleased (key : String)
  | handler (fault : BlockFault)
  /-- The error `source`, raised in a block. -/
  | atBlock (tab block : String) (opcode : Opcode) (source : EngineError)
deriving DecidableEq

def GraphFault.message : GraphFault → String
  | .notJson => "<json>"
  | .shape reason => reason
  | .noOpcode block => s!"block '{block}' has no opcode"
  | .noTopLevel block => s!"block '{block}' has no topLevel flag"
  | .fieldNotArray field => s!"field '{field}' is not an array"
  | .inputNotArray input block => s!"input '{input}' of block '{block}' is not an array"
  | .dangling block => s!"block '{block}' is referenced but never defined"
  | .blockNotFound block => s!"block '{block}' not found"
  | .tooDeep limit block => s!"evaluation deeper than {limit} blocks at '{block}'"
  | .callWithoutSignature block => s!"procedure call '{block}' has no signature"
  | .procedureWithoutSignature block => s!"procedure '{block}' has no signature"

def InputFault.message : InputFault → String
  | .missingTag => "missing input tag"
  | .unknownTag code => s!"unknown tag {code}"
  | .noValue => "input has no value"
  | .unexpectedPayload json => s!"unexpected payload {json}"
  | .noPrimitiveKind => "primitive without kind"
  | .unknownPrimitiveKind ordinal => s!"unknown primitive kind {ordinal}"
  | .absent => "block has no such input"
  | .noMenuBlock => "input does not reference a menu block"
  | .menuValueNotFound => "menu value not found"
  | .notMember item members => s!"'{item}' is not one of {members}"
  | .entityNotFound id => s!"entity '{id}' not found"
  | .unknownMathFunction name => s!"unknown math function '{name}'"
  | .unknownTimeUnit name => s!"unknown time unit '{name}'"
  | .unknownOperator name => s!"unknown compare operator '{name}'"
  | .noSourceBlock => "no source block to link"

def BlockFault.message : BlockFault → String
  | .plain text => text
  | .invalidPattern pattern => s!"invalid pattern '{pattern}': <regex>"
  | .waitOutOfRange limit seconds =>
    s!"wait duration must be between 1 and {limit} seconds, got {seconds}"
  | .procedureNotListening signature => s!"procedure '{signature}' is not listening"
  | .procedureFailed signature reason => s!"procedure '{signature}' failed: {reason}"

namespace EngineError

/-- The text of an error. -/
def message : EngineError → String
  | .malformedGraph fault => s!"malformed block graph: {fault.message}"
  | .unknownExtension extension => s!"no block extension <{extension}> found"
  | .unknownOpcode opcode =>
    s!"no block <{opcode.name}> found in extension <{opcode.extension}>"
  | .malformedInput input fault => s!"malformed input '{input}': {fault.message}"
  | .unresolvedVariable name id => s!"unable to find variable '{name}' (id: {id})"
  | .invalidNumericInput input value =>
    s!"unable to parse value '{value}' of input '{input}' as a number"
  | .unsupportedMenuType target => s!"unable to handle menu value with type: {target}"
  | .lockNotFound tab key => s!"lock '{key}' not found in tab '{tab}'"
  | .lockReleased key => s!"lock '{key}' was released while waiting"
  | .handler fault => fault.message
  | .atBlock tab block opcode source =>
    s!"[{tab}] {opcode.describe} ({block}): {source.message}"

/-- A block's own failure with a text of its own. -/
def failed (text : String) : EngineError := .handler (.plain text)

/-- The error as raised in a block. An error that names a block already keeps it, so that of
nested blocks the innermost is named. -/
def inBlock (tab block : String) (opcode : Opcode) : EngineError → EngineError
  | e@(.atBlock ..) => e
  | e => .atBlock tab block opcode e

/-- The error without the block it was raised in. -/
def rootCause : EngineError → EngineError
  | .atBlock _ _ _ source => source.rootCause
  | e => e

/-- Whether the error comes from a lock released under a waiter. -/
def isRelease (e : EngineError) : Bool :=
  match e.rootCause with
  | .lockReleased _ => true
  | _ => false

end EngineError
end BlockEngine

import SpmdArrays.Exec.Value

/-!
What can go wrong when programs run, on one rank or on many. Each error is its
cause; the wording of all of them is in this module. A note is a cause that
someone else states in words.
-/

namespace SpmdArrays

def extentsText (shape : List Nat) : String :=
  "[" ++ ", ".intercalate (shape.map toString) ++ "]"

/-- A value of the wrong kind or extent. -/
inductive TypeCause where
  | branchOn (v : Value)
  | shapes (source target : List Nat)
  | arity (e : EntryPoint)
  | readInto (v : Value)
  | writeFrom (v : Value)
  | datasetRank (rank : Int) (dims : Nat)
  | elementName (name : String)
  | elementValue (v : Value)
  | transferRank (rank : Int) (starts counts : Nat)
  | tupleIndex (i : Int)
  | negativeExtent (n : Int)
  | notInteger (v : Value)
  | notTuple (v : Value)
  | notString (v : Value)
  | notHandle (v : Value)
  | shortOutput (elements room : Nat)
  | note (text : String)

def TypeCause.text : TypeCause → String
  | .branchOn v => "branch on " ++ v.text
  | .shapes source target =>
    "cannot assign shape " ++ extentsText source ++ " into " ++ extentsText target
  | .arity e => "io_abi." ++ e.name ++ " takes " ++ toString e.arity ++ " positional arguments"
  | .readInto v => "read into " ++ v.text
  | .writeFrom v => "write from " ++ v.text
  | .datasetRank rank dims =>
    "create_dataset rank " ++ toString rank ++ " with shape of " ++ toString dims ++ " dims"
  | .elementName name => "unknown dtype '" ++ name ++ "'"
  | .elementValue v => "dtype " ++ v.text
  | .transferRank rank starts counts =>
    "rank " ++ toString rank ++ " with " ++ toString starts ++ " starts and " ++
      toString counts ++ " counts"
  | .tupleIndex i => "tuple index " ++ toString i ++ " out of range"
  | .negativeExtent n => "negative extent " ++ toString n
  | .notInteger v => "expected an integer, got " ++ v.text
  | .notTuple v => "expected a tuple, got " ++ v.text
  | .notString v => "expected a string, got " ++ v.text
  | .notHandle v => "expected a handle, got " ++ v.text
  | .shortOutput elements room =>
    "cumulative sum of " ++ toString elements ++ " elements into " ++ toString room
  | .note text => text

/-- An operation that has no meaning here. -/
inductive UnsupportedCause where
  | stepLimit
  | missingBlock (l : Label)
  | itemAssignment (target : Value)
  | noEntry (name : String)
  | attribute (name : String) (base : Value)
  | callOf (callee : Value)
  | indexing (base index : Value)
  | peerOutside (peer : Int) (size : Nat)
  | note (text : String)

def UnsupportedCause.text : UnsupportedCause → String
  | .stepLimit => "exceeded step limit (infinite loop?)"
  | .missingBlock l => "missing block " ++ labelText l
  | .itemAssignment target => "item assignment into " ++ target.text
  | .noEntry name => "io_abi has no entry '" ++ name ++ "'"
  | .attribute name base => "attribute '" ++ name ++ "' of " ++ base.text
  | .callOf callee => "call of " ++ callee.text ++ "; only io_abi entries are executable"
  | .indexing base index => "indexing " ++ base.text ++ " with " ++ index.text
  | .peerOutside peer size =>
    "peer " ++ toString peer ++ " outside a world of " ++ toString size
  | .note text => text

/-- Ranks that do not agree on what they exchange. -/
inductive MismatchCause where
  | contribution (peer : Nat) (expected : String)
  | arrayLength (mine : Nat) (peer : Nat) (theirs : Nat)
  | message (source : Int) (expected : ElementType)
  | messageLength (elements room : Nat)
  | note (text : String)

def MismatchCause.text : MismatchCause → String
  | .contribution peer expected =>
    "rank " ++ toString peer ++ " contributed a different type than " ++ expected
  | .arrayLength mine peer theirs =>
    "array of " ++ toString mine ++ " elements, rank " ++ toString peer ++ " has " ++
      toString theirs
  | .message source expected =>
    "message from rank " ++ toString source ++ " is not " ++ expected.name
  | .messageLength elements room =>
    toString elements ++ " elements into a buffer of " ++ toString room
  | .note text => text

inductive RunError where
  | callFailed (entry : String) (status : Int)
  | unknownHandle (h : Int)
  | collectiveMismatch (rank : Int) (cause : MismatchCause)
  | undefinedVariable (name : String)
  | typeError (cause : TypeCause)
  | unsupported (cause : UnsupportedCause)

def RunError.message : RunError → String
  | .callFailed entry status =>
    "native call '" ++ entry ++ "' failed with status " ++ toString status
  | .unknownHandle h => "unknown handle " ++ toString h
  | .collectiveMismatch rank cause =>
    "collective mismatch on rank " ++ toString rank ++ ": " ++ cause.text
  | .undefinedVariable name => "variable '" ++ name ++ "' used before assignment"
  | .typeError cause => "type error: " ++ cause.text
  | .unsupported cause => "not supported by the interpreter: " ++ cause.text

def checkStatus (entry : String) (status : Int) : Except RunError Unit :=
  if status < 0 then .error (.callFailed entry status) else .ok ()

end SpmdArrays

import LazyVectors.Kind
set_option autoImplicit false

namespace LazyVectors

inductive IndexFault where
  | invalidSubscript (k : Kind)
  | missingWithNegative
  | mixedSigns
  | outOfBounds
  | wrongDimensions
  | wrongSubscripts
  | selectsNone
  | selectsMany
  | missingSubscript
  | tooManySupplied
  | emptyReplacement
  | missingTarget
  | notMultiple
  | tooLarge
  | noSuchIndex (level : Nat)
  | notRecursive (level : Nat)
  | tooManyNames (names length : Nat)
  | invalidDim
  | emptyDim
  | invalidExtent
  | dimTooLarge
  | dimMismatch (product length : Nat)
  | notArray
  | dimnamesCount (entries dims : Nat)
  | dimnamesExtent (position : Nat)
  deriving DecidableEq, Repr

namespace IndexFault

def message : IndexFault → String
  | invalidSubscript k => s!"invalid subscript type '{k.typeName}'"
  | missingWithNegative => "can't mix NAs with negative subscripts"
  | mixedSigns => "only 0's may be mixed with negative subscripts"
  | outOfBounds => "subscript out of bounds"
  | wrongDimensions => "incorrect number of dimensions"
  | wrongSubscripts => "incorrect number of subscripts"
  | selectsNone => "attempt to select less than one element"
  | selectsMany => "attempt to select more than one element"
  | missingSubscript => "[[ ]] with missing subscript"
  | tooManySupplied => "more elements supplied than there are to replace"
  | emptyReplacement => "replacement has length zero"
  | missingTarget => "NAs are not allowed in subscripted assignments"
  | notMultiple => "number of items to replace is not a multiple of replacement length"
  | tooLarge => "subscript too large"
  | noSuchIndex level => s!"no such index at level {level}"
  | notRecursive level => s!"recursive indexing failed at level {level}"
  | tooManyNames names length =>
    s!"'names' attribute [{names}] must be the same length as the vector [{length}]"
  | invalidDim => "invalid 'dim' attribute"
  | emptyDim => "length-0 dimension vector is invalid"
  | invalidExtent => "the dims contain missing or negative values"
  | dimTooLarge => "dims product is too large"
  | dimMismatch product length =>
    s!"dims [product {product}] do not match the length of object [{length}]"
  | notArray => "'dimnames' applied to non-array"
  | dimnamesCount entries dims =>
    s!"length of 'dimnames' [{entries}] must match that of 'dims' [{dims}]"
  | dimnamesExtent position => s!"length of 'dimnames' [{position}] not equal to array extent"

end IndexFault

inductive CoercionFault where
  | kinds (source target : Kind)
  | listItem (target : Kind)
  | listText
  | invalidNames
  | invalidMode (mode : String)
  deriving DecidableEq, Repr

namespace CoercionFault

def message : CoercionFault → String
  | kinds source target =>
    s!"cannot coerce type '{source.typeName}' to vector of type '{target.typeName}'"
  | listItem target => s!"(list) object cannot be coerced to type '{target.typeName}'"
  | listText => "list type not supported for as.character - requires deparsing"
  | invalidNames => "invalid 'names' attribute"
  | invalidMode mode => s!"invalid 'mode' argument: '{mode}'"

end CoercionFault

inductive KeyFault where
  | positions
  | invalid (shown : String)
  | reported (message : String)
  deriving DecidableEq, Repr

namespace KeyFault

def message : KeyFault → String
  | positions => "Invalid number positions for foreign access."
  | invalid shown => s!"invalid index/identifier during foreign access: {shown}"
  | reported message => message

end KeyFault

/-- A step that no call reaches; kept apart so that this can be stated. -/
inductive InternalFault where
  | extractionPlan
  | replacementPlan
  | storage (source target : Kind)
  | emptyVector (k : Kind)
  | outOfRange
  deriving DecidableEq, Repr

namespace InternalFault

def message : InternalFault → String
  | extractionPlan => "internal error: extraction plan does not match container"
  | replacementPlan => "internal error: replacement plan does not match arguments"
  | storage source target =>
    s!"internal error: assigning {source.typeName} elements into {target.typeName} storage"
  | emptyVector k => s!"cannot create a vector of type '{k.typeName}'"
  | outOfRange => "internal error: index out of range"

end InternalFault

inductive RuntimeFault where
  | notSubsettable (k : Kind)
  | fieldOfAtomic
  | invalidField
  | allocation (length : Nat)
  | frameGone
  | functionNotFound (name : String)
  | notFunction
  | unusedArgument (name : String)
  | matchedTwice (name : String)
  | emptyArgument
  | invalidMissing
  | reported (message : String)
  | internal (fault : InternalFault)
  deriving DecidableEq, Repr

namespace RuntimeFault

/-- The frame of a promise has no name of its own, so `frameGone` shows a placeholder. -/
def message : RuntimeFault → String
  | notSubsettable k => s!"object of type '{k.typeName}' is not subsettable"
  | fieldOfAtomic => "$ operator is invalid for atomic vectors"
  | invalidField => "invalid subscript type for '$'"
  | allocation length => s!"cannot allocate vector of length {length}"
  | frameGone => "environment of promise <id> is no longer available"
  | functionNotFound name => s!"could not find function \"{name}\""
  | notFunction => "attempt to apply non-function"
  | unusedArgument name => s!"unused argument ({name} = ...)"
  | matchedTwice name => s!"formal argument \"{name}\" matched by multiple actual arguments"
  | emptyArgument => "argument is empty"
  | invalidMissing => "invalid use of 'missing'"
  | reported message => message
  | internal fault => fault.message

end RuntimeFault

inductive SettingsFault where
  | unreadable
  | zeroSize (setting : String)
  | unknownLevel (level : String)
  deriving DecidableEq, Repr

namespace SettingsFault

def message : SettingsFault → String
  | unreadable => "invalid configuration"
  | zeroSize setting => s!"invalid configuration: {setting} must be at least 1"
  | unknownLevel level => s!"invalid configuration: unknown log level '{level}'"

end SettingsFault

inductive Failure where
  | argumentCount (function : String) (expected supplied : Nat)
  | recursiveForce
  | index (fault : IndexFault)
  | coercion (fault : CoercionFault)
  | foreignAccess (fault : KeyFault)
  | missingArgument (name : String)
  | notFound (name : String)
  | runtime (fault : RuntimeFault)
  | settings (fault : SettingsFault)
  deriving DecidableEq, Repr

namespace Failure

def message : Failure → String
  | argumentCount function expected supplied =>
    s!"{supplied} arguments passed to '{function}' which requires {expected}"
  | recursiveForce =>
    "promise already under evaluation: recursive default argument reference or earlier problems?"
  | index fault => fault.message
  | coercion fault => fault.message
  | foreignAccess fault => fault.message
  | missingArgument name => s!"argument \"{name}\" is missing, with no default"
  | notFound name => s!"object '{name}' not found"
  | runtime fault => fault.message
  | settings fault => fault.message

def internal (fault : InternalFault) : Failure := runtime (.internal fault)

end Failure

def Kind.ofMode (mode : String) : Except Failure Kind :=
  match Kind.ofMode? mode with
  | some k => .ok k
  | none => .error (.coercion (.invalidMode mode))

end LazyVectors

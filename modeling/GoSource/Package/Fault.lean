import GoSource.Package.Object

/-!
# Faults of declarations

What can be wrong with the declarations of a package once they are parsed.  Types, expressions and names are
shown as they are spelled.

A `Failure` ends the work on a declaration, or, when a type could not be built for a reason that no source text
should cause, on the whole file.
-/

namespace GoSource

/-- What can be wrong with a declaration. -/
inductive SemanticFault where
  /-- A part of a construct is missing. -/
  | incomplete (construct : String)
  | genericType
  | genericFunction
  | genericMethod
  | instantiation
  | redeclared (name : String)
  | blankUsed
  | undefined (name : String)
  | recursiveType (typ : String)
  | missingInitializer
  | extraInitializer
  | countMismatch (names values : Nat)
  | constantMismatch (literal valueType declared : String)
  | variableMismatch (expr valueType declared : String)
  /-- The initializer could not be parsed. -/
  | invalidInitializer
  /-- The constant that initializes has no value itself. -/
  | initializerWithoutValue (name : String)
  | notConstantObject (name : String) (role : Role)
  | notConstant (expr : String)
  | qualifiedConstant (expr : String)
  | constantConversion (expr : String)
  | constantFolding (expr : String)
  | builtinNotCalled (name : String)
  | typeAsValue (name : String)
  | packageAsValue (name : String)
  | untypedNil
  /-- `main` and `init` take and return nothing. -/
  | entryPointSignature (name : String)
  | notAType (expr : String)
  | qualifiedType (expr : String)
  | structType
  | constraint
  | notAnInterface (typ : String)
  /-- An array whose length is to be counted, outside a composite literal. -/
  | countedArray
  | lengthNotInteger (name : String)
  | lengthNotLiteral (expr : String)
  | invalidLength (literal : String)
  | misplacedEllipsis
  | noReceiver
  | multipleReceivers
  | invalidReceiver (typ : String)
  | pointerReceiver (typ : String)
  | foreignReceiver (typ : String)
  | methodRedeclared (typ name : String)
  /-- A type could not be built as written. -/
  | construction (fault : TypeFault)
  deriving DecidableEq, Repr

instance : Inhabited SemanticFault := ⟨.blankUsed⟩

/-- The wording of faults of declarations. -/
def SemanticFault.message : SemanticFault → String
  | .incomplete construct => "incomplete " ++ construct
  | .genericType => "generic type declarations are not supported"
  | .genericFunction => "generic functions are not supported"
  | .genericMethod => "generic methods are not supported"
  | .instantiation => "generic type instantiation is not supported"
  | .redeclared name => name ++ " redeclared in this block"
  | .blankUsed => "cannot use _ as value or type"
  | .undefined name => "undefined: " ++ name
  | .recursiveType typ => "invalid recursive type " ++ typ
  | .missingInitializer => "missing init expr for const declaration"
  | .extraInitializer => "extra init expr"
  | .countMismatch names values =>
      "assignment mismatch: " ++ toString names ++ " variables but " ++ toString values ++ " values"
  | .constantMismatch literal valueType declared =>
      "cannot use " ++ literal ++ " (" ++ valueType ++ " constant) as " ++ declared
        ++ " value in constant declaration"
  | .variableMismatch expr valueType declared =>
      "cannot use " ++ expr ++ " (" ++ valueType ++ " value) as " ++ declared
        ++ " value in variable declaration"
  | .invalidInitializer => "invalid constant initializer"
  | .initializerWithoutValue name => "invalid constant initializer " ++ name
  | .notConstantObject name role => name ++ " (" ++ role.label ++ ") is not constant"
  | .notConstant expr => expr ++ " is not constant"
  | .qualifiedConstant expr => "qualified constant " ++ expr ++ " is not supported"
  | .constantConversion expr => "constant conversion " ++ expr ++ " is not supported"
  | .constantFolding expr => "constant folding not supported: " ++ expr
  | .builtinNotCalled name => name ++ " (built-in function) must be called"
  | .typeAsValue name => name ++ " (type) is not an expression"
  | .packageAsValue name => "use of package " ++ name ++ " without selector"
  | .untypedNil => "use of untyped nil in variable declaration"
  | .entryPointSignature name => "func " ++ name ++ " must have no arguments and no return values"
  | .notAType expr => expr ++ " is not a type"
  | .qualifiedType expr => "qualified type " ++ expr ++ " is not supported"
  | .structType => "struct types are not supported"
  | .constraint => "type constraints are not supported"
  | .notAnInterface typ => typ ++ " is not an interface"
  | .countedArray => "invalid use of [...] array outside a composite literal"
  | .lengthNotInteger name => "array length " ++ name ++ " must be an integer constant"
  | .lengthNotLiteral expr => "array length " ++ expr ++ " must be a constant literal"
  | .invalidLength literal => "invalid array length " ++ literal
  | .misplacedEllipsis => "can only use ... with final parameter in list"
  | .noReceiver => "method has no receiver"
  | .multipleReceivers => "method has multiple receivers"
  | .invalidReceiver typ => "invalid receiver type " ++ typ
  | .pointerReceiver typ => "invalid receiver type " ++ typ ++ " (pointer or interface type)"
  | .foreignReceiver typ => "cannot define new methods on non-local type " ++ typ
  | .methodRedeclared typ name => "method " ++ typ ++ "." ++ name ++ " already declared"
  | .construction fault => fault.message

instance : Describe SemanticFault := ⟨SemanticFault.message⟩

/-- Why work on a declaration ended early. -/
inductive Failure where
  /-- The declaration is at fault.  The others are not affected. -/
  | declaration (diagnostic : Diagnostic SemanticFault)
  /-- A type was refused though its parts had been checked.  Nothing more is done for the file. -/
  | construction (fault : TypeFault)
  deriving DecidableEq, Repr

instance : Inhabited Failure := ⟨.construction default⟩

/-- The wording of a failure. -/
def Failure.message : Failure → String
  | .declaration diagnostic => diagnostic.render
  | .construction fault => "type construction failed: " ++ fault.message

instance : Describe Failure := ⟨Failure.message⟩

end GoSource

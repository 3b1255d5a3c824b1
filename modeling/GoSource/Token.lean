/-!
# Tokens

The kinds of tokens: what the scanner finds in a source text, and the tags that the parser puts on nodes
which have no token of their own.

* `Token.text` is the spelling of an operator or keyword and the name of every other kind.
* `Token.lookup` tells keywords from identifiers; `Operator.ofText?` reads an operator.
* `Token.precedence` and `Token.endsStatement` are the two tables that drive binary expressions and the
  automatic semicolons.

A trailing underscore in a constructor keeps it apart from a reserved word.
-/

namespace GoSource

/-- Tokens that carry a text of their own. -/
inductive LiteralClass where
  | ident | int | float | imag | char | string
  deriving DecidableEq, Repr, Inhabited

/-- Operators and punctuation. -/
inductive Operator where
  | add | sub | mul | quo | rem
  | and | or | xor | shl | shr | andNot
  | addAssign | subAssign | mulAssign | quoAssign | remAssign
  | andAssign | orAssign | xorAssign | shlAssign | shrAssign | andNotAssign
  | logicalAnd | logicalOr | arrow | inc | dec
  | eql | lss | gtr | assign | not
  | neq | leq | geq | define | ellipsis
  | lparen | lbrack | lbrace | comma | period
  | rparen | rbrack | rbrace | semicolon | colon | tilde
  deriving DecidableEq, Repr, Inhabited

/-- Reserved words. -/
inductive Keyword where
  | break_ | case_ | chan | const | continue_ | default_ | defer | else_ | fallthrough
  | for_ | func | go | goto | if_ | import_ | interface | map | package
  | range | return_ | select | struct | switch | type | var
  deriving DecidableEq, Repr, Inhabited

/-- Tags of nodes that stand for a construct rather than for a token. -/
inductive NodeTag where
  | array | block | bothDir | call | compositeLit | decls | exprs | field | file | generic
  | importSpec | imports | index | keyValue | label | lambda | names | params | recvDir
  | results | sendDir | slice | typeAssert | typeSwitch | valueSpec
  deriving DecidableEq, Repr, Inhabited

/-- The kind of a token or of a node. -/
inductive Token where
  /-- A character or malformed piece that belongs to no token. -/
  | illegal
  /-- The end of the text. -/
  | eof
  /-- A comment. -/
  | comment
  /-- An identifier or a literal. -/
  | lit (class_ : LiteralClass)
  /-- An operator or punctuation mark. -/
  | op (operator : Operator)
  /-- A reserved word. -/
  | kw (keyword : Keyword)
  /-- A construct without a token of its own. -/
  | tag (tag : NodeTag)
  deriving DecidableEq, Repr

instance : Inhabited Token := ⟨.illegal⟩

namespace LiteralClass

/-- Every literal class. -/
def all : List LiteralClass :=
  [.ident, .int, .float, .imag, .char, .string]

/-- The name of a literal class. -/
def text : LiteralClass → String
  | .ident => "IDENT"
  | .int => "INT"
  | .float => "FLOAT"
  | .imag => "IMAG"
  | .char => "CHAR"
  | .string => "STRING"

end LiteralClass

namespace Operator

/-- Every operator. -/
def all : List Operator :=
  [.add, .sub, .mul, .quo, .rem, .and, .or, .xor, .shl, .shr, .andNot,
   .addAssign, .subAssign, .mulAssign, .quoAssign, .remAssign,
   .andAssign, .orAssign, .xorAssign, .shlAssign, .shrAssign, .andNotAssign,
   .logicalAnd, .logicalOr, .arrow, .inc, .dec, .eql, .lss, .gtr, .assign, .not,
   .neq, .leq, .geq, .define, .ellipsis, .lparen, .lbrack, .lbrace, .comma, .period,
   .rparen, .rbrack, .rbrace, .semicolon, .colon, .tilde]

/-- The spelling of an operator. -/
def text : Operator → String
  | .add => "+"
  | .sub => "-"
  | .mul => "*"
  | .quo => "/"
  | .rem => "%"
  | .and => "&"
  | .or => "|"
  | .xor => "^"
  | .shl => "<<"
  | .shr => ">>"
  | .andNot => "&^"
  | .addAssign => "+="
  | .subAssign => "-="
  | .mulAssign => "*="
  | .quoAssign => "/="
  | .remAssign => "%="
  | .andAssign => "&="
  | .orAssign => "|="
  | .xorAssign => "^="
  | .shlAssign => "<<="
  | .shrAssign => ">>="
  | .andNotAssign => "&^="
  | .logicalAnd => "&&"
  | .logicalOr => "||"
  | .arrow => "<-"
  | .inc => "++"
  | .dec => "--"
  | .eql => "=="
  | .lss => "<"
  | .gtr => ">"
  | .assign => "="
  | .not => "!"
  | .neq => "!="
  | .leq => "<="
  | .geq => ">="
  | .define => ":="
  | .ellipsis => "..."
  | .lparen => "("
  | .lbrack => "["
  | .lbrace => "\x7b"
  | .comma => ","
  | .period => "."
  | .rparen => ")"
  | .rbrack => "]"
  | .rbrace => "\x7d"
  | .semicolon => ";"
  | .colon => ":"
  | .tilde => "~"

/-- The operator with a given spelling. -/
def ofText? (s : String) : Option Operator :=
  all.find? (·.text == s)

/-- Operators that assign, plainly or with an operation, and the short declaration. -/
def assigns : Operator → Bool
  | .assign | .define
  | .addAssign | .subAssign | .mulAssign | .quoAssign | .remAssign
  | .andAssign | .orAssign | .xorAssign | .shlAssign | .shrAssign | .andNotAssign => true
  | _ => false

/-- How tightly a binary operator binds, from 1 to 5; 0 for the others. -/
def precedence : Operator → Nat
  | .logicalOr => 1
  | .logicalAnd => 2
  | .eql | .neq | .lss | .leq | .gtr | .geq => 3
  | .add | .sub | .or | .xor => 4
  | .mul | .quo | .rem | .shl | .shr | .and | .andNot => 5
  | _ => 0

end Operator

namespace Keyword

/-- Every keyword. -/
def all : List Keyword :=
  [.break_, .case_, .chan, .const, .continue_, .default_, .defer, .else_, .fallthrough,
   .for_, .func, .go, .goto, .if_, .import_, .interface, .map, .package,
   .range, .return_, .select, .struct, .switch, .type, .var]

/-- The spelling of a keyword. -/
def text : Keyword → String
  | .break_ => "break"
  | .case_ => "case"
  | .chan => "chan"
  | .const => "const"
  | .continue_ => "continue"
  | .default_ => "default"
  | .defer => "defer"
  | .else_ => "else"
  | .fallthrough => "fallthrough"
  | .for_ => "for"
  | .func => "func"
  | .go => "go"
  | .goto => "goto"
  | .if_ => "if"
  | .import_ => "import"
  | .interface => "interface"
  | .map => "map"
  | .package => "package"
  | .range => "range"
  | .return_ => "return"
  | .select => "select"
  | .struct => "struct"
  | .switch => "switch"
  | .type => "type"
  | .var => "var"

/-- The keyword with a given spelling. -/
def ofText? (s : String) : Option Keyword :=
  all.find? (·.text == s)

end Keyword

namespace NodeTag

/-- Every tag. -/
def all : List NodeTag :=
  [.array, .block, .bothDir, .call, .compositeLit, .decls, .exprs, .field, .file, .generic,
   .importSpec, .imports, .index, .keyValue, .label, .lambda, .names, .params, .recvDir,
   .results, .sendDir, .slice, .typeAssert, .typeSwitch, .valueSpec]

/-- The name of a tag. -/
def text : NodeTag → String
  | .array => "ARRAY"
  | .block => "BLOCK"
  | .bothDir => "BOTH_DIR"
  | .call => "CALL"
  | .compositeLit => "COMPOSITE_LIT"
  | .decls => "DECLS"
  | .exprs => "EXPRS"
  | .field => "FIELD"
  | .file => "FILE"
  | .generic => "GENERIC"
  | .importSpec => "IMPORT_SPEC"
  | .imports => "IMPORTS"
  | .index => "INDEX"
  | .keyValue => "KEY_VALUE"
  | .label => "LABEL"
  | .lambda => "LAMBDA"
  | .names => "NAMES"
  | .params => "PARAMS"
  | .recvDir => "RECV_DIR"
  | .results => "RESULTS"
  | .sendDir => "SEND_DIR"
  | .slice => "SLICE"
  | .typeAssert => "TYPE_ASSERT"
  | .typeSwitch => "TYPESWITCH"
  | .valueSpec => "VALUE_SPEC"

end NodeTag

namespace Token

/-- Every token kind, in the order of the kinds' ordinals. -/
def all : List Token :=
  [.illegal, .eof, .comment] ++ LiteralClass.all.map .lit ++ Operator.all.map .op
    ++ Keyword.all.map .kw ++ NodeTag.all.map .tag

/-- The spelling of an operator or keyword, the name of any other kind. -/
def text : Token → String
  | .illegal => "ILLEGAL"
  | .eof => "EOF"
  | .comment => "COMMENT"
  | .lit c => c.text
  | .op o => o.text
  | .kw k => k.text
  | .tag t => t.text

/-- The kind with a given spelling or name. -/
def ofText? (s : String) : Option Token :=
  all.find? (·.text == s)

/-- The place of a kind among all kinds, from 0. -/
def ordinal (t : Token) : Nat :=
  all.idxOf t

/-- Identifiers and literals. -/
def isLiteral : Token → Bool
  | .lit _ => true
  | _ => false

/-- Operators and punctuation. -/
def isOperator : Token → Bool
  | .op _ => true
  | _ => false

/-- Reserved words. -/
def isKeyword : Token → Bool
  | .kw _ => true
  | _ => false

/-- Kinds that occur on nodes only. -/
def isSynthetic : Token → Bool
  | .tag _ => true
  | _ => false

/-- Assignment operators, `:=` included. -/
def isAssign : Token → Bool
  | .op o => o.assigns
  | _ => false

/-- Binary precedence; 0 for everything that is not a binary operator. -/
def precedence : Token → Nat
  | .op o => o.precedence
  | _ => 0

/-- The keyword spelled `s`, or an identifier. -/
def lookup (s : String) : Token :=
  ((Keyword.ofText? s).map Token.kw).getD (.lit .ident)

/-- Keywords that open a declaration. -/
def isDecl : Token → Bool
  | .kw .const | .kw .func | .kw .import_ | .kw .type | .kw .var => true
  | _ => false

/-- Closing brackets. -/
def isClosing : Token → Bool
  | .op .rparen | .op .rbrack | .op .rbrace => true
  | _ => false

/-- Tokens after which the end of a line ends the statement. -/
def endsStatement : Token → Bool
  | .lit _ => true
  | .kw .break_ | .kw .continue_ | .kw .fallthrough | .kw .return_ => true
  | .op .inc | .op .dec | .op .rparen | .op .rbrack | .op .rbrace => true
  | _ => false

end Token

end GoSource

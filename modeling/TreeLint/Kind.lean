/-!
# Kinds of nodes

The element types of a Kotlin syntax tree that the rules are written
against. Composite kinds group other nodes and token kinds carry text, but
nothing here ties a kind to either use: the tree enforces no grammar.

The standard rules share this vocabulary (specification, §13).
-/

namespace TreeLint

/-- The element type of a node. -/
inductive Kind where
  | file | classDecl | classBody | classInitializer | objectDecl
  | objectLiteral | function | property | propertyAccessor | block
  | functionLiteral | argumentList | argument | parameterList | parameter
  | modifierList | annotationEntry | typeReference | binaryExpr | prefixExpr
  | dotQualifiedExpr | safeAccessExpr | operationReference | callExpr
  | whenExpr | docComment | whitespace | lineComment | blockComment
  | identifier | keyword | integerLiteral | stringLiteral | leftBrace
  | rightBrace | leftParen | rightParen | comma | colon | equals | dot
  | safeAccess | elvis | arrow | plus | minus | times | divide | percent
  | logicalAnd | logicalOr | returnKeyword | elseKeyword
deriving DecidableEq, Repr, Inhabited

namespace Kind

/-- Every kind once. -/
def all : List Kind :=
  [.file, .classDecl, .classBody, .classInitializer, .objectDecl,
   .objectLiteral, .function, .property, .propertyAccessor, .block,
   .functionLiteral, .argumentList, .argument, .parameterList, .parameter,
   .modifierList, .annotationEntry, .typeReference, .binaryExpr, .prefixExpr,
   .dotQualifiedExpr, .safeAccessExpr, .operationReference, .callExpr,
   .whenExpr, .docComment, .whitespace, .lineComment, .blockComment,
   .identifier, .keyword, .integerLiteral, .stringLiteral, .leftBrace,
   .rightBrace, .leftParen, .rightParen, .comma, .colon, .equals, .dot,
   .safeAccess, .elvis, .arrow, .plus, .minus, .times, .divide, .percent,
   .logicalAnd, .logicalOr, .returnKeyword, .elseKeyword]

/-- The name of a kind in tree dumps: upper case, words joined by
underscores. -/
def name : Kind → String
  | .file => "FILE"
  | .classDecl => "CLASS"
  | .classBody => "CLASS_BODY"
  | .classInitializer => "CLASS_INITIALIZER"
  | .objectDecl => "OBJECT_DECLARATION"
  | .objectLiteral => "OBJECT_LITERAL"
  | .function => "FUN"
  | .property => "PROPERTY"
  | .propertyAccessor => "PROPERTY_ACCESSOR"
  | .block => "BLOCK"
  | .functionLiteral => "FUNCTION_LITERAL"
  | .argumentList => "VALUE_ARGUMENT_LIST"
  | .argument => "VALUE_ARGUMENT"
  | .parameterList => "VALUE_PARAMETER_LIST"
  | .parameter => "VALUE_PARAMETER"
  | .modifierList => "MODIFIER_LIST"
  | .annotationEntry => "ANNOTATION_ENTRY"
  | .typeReference => "TYPE_REFERENCE"
  | .binaryExpr => "BINARY_EXPRESSION"
  | .prefixExpr => "PREFIX_EXPRESSION"
  | .dotQualifiedExpr => "DOT_QUALIFIED_EXPRESSION"
  | .safeAccessExpr => "SAFE_ACCESS_EXPRESSION"
  | .operationReference => "OPERATION_REFERENCE"
  | .callExpr => "CALL_EXPRESSION"
  | .whenExpr => "WHEN"
  | .docComment => "KDOC"
  | .whitespace => "WHITE_SPACE"
  | .lineComment => "EOL_COMMENT"
  | .blockComment => "BLOCK_COMMENT"
  | .identifier => "IDENTIFIER"
  | .keyword => "KEYWORD"
  | .integerLiteral => "INTEGER_LITERAL"
  | .stringLiteral => "STRING_LITERAL"
  | .leftBrace => "LBRACE"
  | .rightBrace => "RBRACE"
  | .leftParen => "LPAR"
  | .rightParen => "RPAR"
  | .comma => "COMMA"
  | .colon => "COLON"
  | .equals => "EQ"
  | .dot => "DOT"
  | .safeAccess => "SAFE_ACCESS"
  | .elvis => "ELVIS"
  | .arrow => "ARROW"
  | .plus => "PLUS"
  | .minus => "MINUS"
  | .times => "MUL"
  | .divide => "DIV"
  | .percent => "PERC"
  | .logicalAnd => "ANDAND"
  | .logicalOr => "OROR"
  | .returnKeyword => "RETURN_KEYWORD"
  | .elseKeyword => "ELSE_KEYWORD"

/-- The kind with a given name. -/
def ofName? (s : String) : Option Kind :=
  all.find? fun k => k.name == s

/-- End-of-line, block and documentation comments. -/
def isComment : Kind → Bool
  | .lineComment | .blockComment | .docComment => true
  | _ => false

/-- White space and comments. -/
def isTrivia (k : Kind) : Bool :=
  k == .whitespace || k.isComment

/-- Kinds that introduce a named declaration. Specification, §13. -/
def isDeclaration : Kind → Bool
  | .classDecl | .classInitializer | .function | .objectDecl | .property
  | .propertyAccessor => true
  | _ => false

/-- Operator tokens of binary and assignment expressions. -/
def isOperation : Kind → Bool
  | .equals | .plus | .minus | .times | .divide | .percent | .logicalAnd
  | .logicalOr | .elvis => true
  | _ => false

end Kind

end TreeLint

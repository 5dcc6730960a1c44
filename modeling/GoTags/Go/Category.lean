import GoTags.Go.Terminal

/-!
# Categories of Go

The syntactic categories, numbered after the terminals. Those that can stand as
an item of a file have a name by which an item that declares nothing is listed.
-/

namespace GoTags
namespace Go

section Defs

/-- The syntactic categories of Go. -/
inductive Category where
  | file | sourceFile
  | packageClause | importDeclaration | importSpec | importDot | importSpecList
  | declaration | constDeclaration | constSpec | varDeclaration | varSpec | varSpecList
  | functionDeclaration | methodDeclaration
  | typeParameterList | typeParameterDeclaration
  | parameterList | parameterDeclaration | variadicParameterDeclaration
  | typeAlias | typeDeclaration | typeSpec
  | expressionList
  | parenthesizedType | simpleType | genericType | typeArguments | pointerType | arrayType
  | implicitLengthArrayType | sliceType | structType | negatedType
  | fieldDeclarationList | fieldDeclaration | interfaceType | methodElem | typeElem
  | mapType | channelType | functionType | qualifiedType
  | block | statementList | statement | emptyStatement | simpleStatement
  | expressionStatement | sendStatement | receiveStatement | incStatement | decStatement
  | assignmentStatement | shortVarDeclaration | labeledStatement | emptyLabeledStatement
  | fallthroughStatement | breakStatement | continueStatement | gotoStatement
  | returnStatement | goStatement | deferStatement
  | ifStatement | forStatement | forClause | rangeClause
  | expressionSwitchStatement | expressionCase | defaultCase
  | typeSwitchStatement | typeSwitchHeader | typeCase
  | selectStatement | communicationCase
  | expression | parenthesizedExpression | callExpression | variadicArgument
  | specialArgumentList | argumentList | selectorExpression | indexExpression | sliceExpression
  | typeAssertionExpression | typeConversionExpression | typeInstantiationExpression
  | compositeLiteral | literalValue | literalElement | keyedElement | funcLiteral
  | unaryExpression | binaryExpression | rawStringLiteral | interpretedStringLiteral
  deriving DecidableEq, Repr

namespace Category

/-- The number of a category among all symbols. -/
def code (c : Category) : Nat :=
  Terminal.count + c.ctorIdx

/-- Categories in the order of their numbers. -/
def all : List Category :=
  [file, sourceFile,
   packageClause, importDeclaration, importSpec, importDot, importSpecList,
   declaration, constDeclaration, constSpec, varDeclaration, varSpec, varSpecList,
   functionDeclaration, methodDeclaration,
   typeParameterList, typeParameterDeclaration,
   parameterList, parameterDeclaration, variadicParameterDeclaration,
   typeAlias, typeDeclaration, typeSpec,
   expressionList,
   parenthesizedType, simpleType, genericType, typeArguments, pointerType, arrayType,
   implicitLengthArrayType, sliceType, structType, negatedType,
   fieldDeclarationList, fieldDeclaration, interfaceType, methodElem, typeElem,
   mapType, channelType, functionType, qualifiedType,
   block, statementList, statement, emptyStatement, simpleStatement,
   expressionStatement, sendStatement, receiveStatement, incStatement, decStatement,
   assignmentStatement, shortVarDeclaration, labeledStatement, emptyLabeledStatement,
   fallthroughStatement, breakStatement, continueStatement, gotoStatement,
   returnStatement, goStatement, deferStatement,
   ifStatement, forStatement, forClause, rangeClause,
   expressionSwitchStatement, expressionCase, defaultCase,
   typeSwitchStatement, typeSwitchHeader, typeCase,
   selectStatement, communicationCase,
   expression, parenthesizedExpression, callExpression, variadicArgument,
   specialArgumentList, argumentList, selectorExpression, indexExpression, sliceExpression,
   typeAssertionExpression, typeConversionExpression, typeInstantiationExpression,
   compositeLiteral, literalValue, literalElement, keyedElement, funcLiteral,
   unaryExpression, binaryExpression, rawStringLiteral, interpretedStringLiteral]

/-- Categories that are ways of reading a file, not items of it: their parts
take their place. -/
def isTransparent : Category → Bool
  | file | sourceFile | declaration | statement | simpleStatement => true
  | _ => false

/-- The name of a category that stands as an item of a file. -/
def itemName : Category → String
  | packageClause => "package_clause"
  | importDeclaration => "import_declaration"
  | constDeclaration => "const_declaration"
  | varDeclaration => "var_declaration"
  | typeDeclaration => "type_declaration"
  | functionDeclaration => "function_declaration"
  | methodDeclaration => "method_declaration"
  | block => "block"
  | emptyStatement => "empty_statement"
  | expressionStatement => "expression_statement"
  | sendStatement => "send_statement"
  | incStatement => "inc_statement"
  | decStatement => "dec_statement"
  | assignmentStatement => "assignment_statement"
  | shortVarDeclaration => "short_var_declaration"
  | labeledStatement => "labeled_statement"
  | fallthroughStatement => "fallthrough_statement"
  | breakStatement => "break_statement"
  | continueStatement => "continue_statement"
  | gotoStatement => "goto_statement"
  | returnStatement => "return_statement"
  | goStatement => "go_statement"
  | deferStatement => "defer_statement"
  | ifStatement => "if_statement"
  | forStatement => "for_statement"
  | expressionSwitchStatement => "expression_switch_statement"
  | typeSwitchStatement => "type_switch_statement"
  | selectStatement => "select_statement"
  | _ => ""

end Category

end Defs

end Go
end GoTags

import GoTags.Go.Category
import GoTags.Grammar.Rule

/-!
# The syntax of Go

The forms of every category. Statements may stand at the top level of a file
beside declarations, and every item but a last one without need for it ends in a
terminator: a newline, a semicolon or a NUL.

Ranks settle which of two readings a parser takes when both are open: operators
bind by rank and group to the left, a literal with braces yields to a block, a
function declaration takes what follows it. Weights choose between readings that
both work out, such as a conversion and a call.
-/

namespace GoTags
namespace Go

open Grammar Grammar.Rule

section Defs

/-- The rule for one kind of token. -/
def tok (x : Terminal) : Rule :=
  .symbol x.code

/-- The rule for one category. -/
def cat (x : Category) : Rule :=
  .symbol x.code

/-- A form without rank or weight. -/
def plain (rules : List Rule) : List Form :=
  [{ rule := sequence rules }]

/-- A form for each alternative, without rank or weight. -/
def oneOf (rules : List Rule) : List Form :=
  [{ rule := choice rules }]

/-- A form with a rank. -/
def ranked (rank : Int) (rules : List Rule) : Form :=
  { rule := sequence rules, rank }

/-- A form that groups to a side. -/
def grouped (rank : Int) (side : Side) (rules : List Rule) : Form :=
  { rule := sequence rules, rank, side := some side }

/-- A form with a weight. -/
def weighted (weight : Int) (rules : List Rule) : Form :=
  { rule := sequence rules, weight }

/-- What ends an item, a statement or a specification in a group. -/
def terminator : Rule :=
  choice [tok .newline, tok .semicolon, tok .nul]

/-- A name. -/
def name : Rule :=
  tok .identifier

/-- Names with commas between them. -/
def names : Rule :=
  separated name (tok .comma)

/-- Any type. -/
def type : Rule :=
  choice [cat .simpleType, cat .parenthesizedType]

/-- Any expression. -/
def expr : Rule :=
  cat .expression

/-- A string in either notation. -/
def stringLiteral : Rule :=
  choice [cat .rawStringLiteral, cat .interpretedStringLiteral]

/-- An item that only stands at the top level of a file. -/
def topLevelDeclaration : Rule :=
  choice [cat .packageClause, cat .functionDeclaration, cat .methodDeclaration,
    cat .importDeclaration]

/-- What a function gives back. -/
def result : Rule :=
  opt (choice [cat .parameterList, cat .simpleType])

/-- A member of an interface. -/
def interfaceElem : Rule :=
  choice [cat .methodElem, cat .typeElem]

/-- Members with terminators between them, and perhaps one after the last. -/
def terminated (r : Rule) : Rule :=
  opt (sequence [r, many (.seq terminator r), opt terminator])

/-- The marks of assignments with an operator. -/
def assignmentMarks : Rule :=
  choice [tok .starAssign, tok .slashAssign, tok .percentAssign, tok .shlAssign, tok .shrAssign,
    tok .ampAssign, tok .ampCaretAssign, tok .plusAssign, tok .minusAssign, tok .barAssign,
    tok .caretAssign, tok .assign]

/-- The two words that take a type as first argument. -/
def builtin : Rule :=
  choice [tok .kwNew, tok .kwMake]

/-- A binary operator of some rank between two expressions. -/
def binary (rank : Int) (operators : List Terminal) : Form :=
  grouped rank .left [expr, choice (operators.map tok), expr]

/-- The forms of a category. -/
def forms : Category → List Form
  | .file => plain [opt (cat .sourceFile), tok .endOfFile]
  | .sourceFile =>
      oneOf [
        sequence [
          .many1 (choice [.seq (cat .statement) terminator, .seq topLevelDeclaration terminator]),
          opt topLevelDeclaration],
        topLevelDeclaration]
  | .packageClause => plain [tok .kwPackage, name]
  | .importDeclaration => plain [tok .kwImport, choice [cat .importSpec, cat .importSpecList]]
  | .importSpec => plain [opt (choice [cat .importDot, tok .blank, name]), stringLiteral]
  | .importDot => plain [tok .dot]
  | .importSpecList => plain [tok .lparen, terminated (cat .importSpec), tok .rparen]
  | .declaration => oneOf [cat .constDeclaration, cat .typeDeclaration, cat .varDeclaration]
  | .constDeclaration =>
      plain [tok .kwConst, choice [
        cat .constSpec,
        sequence [tok .lparen, many (.seq (cat .constSpec) terminator), tok .rparen]]]
  | .constSpec =>
      [grouped 0 .left [names, opt (sequence [opt type, tok .assign, cat .expressionList])]]
  | .varDeclaration => plain [tok .kwVar, choice [cat .varSpec, cat .varSpecList]]
  | .varSpec =>
      plain [names, choice [
        .seq type (opt (.seq (tok .assign) (cat .expressionList))),
        .seq (tok .assign) (cat .expressionList)]]
  | .varSpecList => plain [tok .lparen, many (.seq (cat .varSpec) terminator), tok .rparen]
  | .functionDeclaration =>
      [grouped 1 .right [tok .kwFunc, name, opt (cat .typeParameterList), cat .parameterList,
        result, opt (cat .block)]]
  | .methodDeclaration =>
      [grouped 1 .right [tok .kwFunc, cat .parameterList, name, cat .parameterList, result,
        opt (cat .block)]]
  | .typeParameterList =>
      plain [tok .lbracket, separated (cat .typeParameterDeclaration) (tok .comma),
        opt (tok .comma), tok .rbracket]
  | .typeParameterDeclaration => plain [names, cat .typeElem]
  | .parameterList =>
      plain [tok .lparen,
        opt (.seq
          (opt (separated
            (choice [cat .parameterDeclaration, cat .variadicParameterDeclaration]) (tok .comma)))
          (opt (tok .comma))),
        tok .rparen]
  | .parameterDeclaration => [grouped 0 .left [opt names, type]]
  | .variadicParameterDeclaration => plain [opt name, tok .ellipsis, type]
  | .typeAlias => plain [name, tok .assign, type]
  | .typeDeclaration =>
      plain [tok .kwType, choice [
        cat .typeSpec,
        cat .typeAlias,
        sequence [tok .lparen,
          many (.seq (choice [cat .typeSpec, cat .typeAlias]) terminator), tok .rparen]]]
  | .typeSpec => plain [name, opt (cat .typeParameterList), type]
  | .expressionList => plain [separated expr (tok .comma)]
  | .parenthesizedType => plain [tok .lparen, type, tok .rparen]
  | .simpleType =>
      weighted (-1) [name] ::
        oneOf [cat .genericType, cat .qualifiedType, cat .pointerType, cat .structType,
          cat .interfaceType, cat .arrayType, cat .sliceType, cat .mapType, cat .channelType,
          cat .functionType, cat .negatedType]
  | .genericType =>
      [weighted 1 [choice [name, cat .qualifiedType, cat .negatedType], cat .typeArguments]]
  | .typeArguments =>
      [weighted 2 [tok .lbracket, separated (cat .typeElem) (tok .comma), opt (tok .comma),
        tok .rbracket]]
  | .pointerType => [ranked 6 [tok .star, type]]
  | .arrayType => [grouped 0 .right [tok .lbracket, expr, tok .rbracket, type]]
  | .implicitLengthArrayType => plain [tok .lbracket, tok .ellipsis, tok .rbracket, type]
  | .sliceType => [grouped 0 .right [tok .lbracket, tok .rbracket, type]]
  | .structType => plain [tok .kwStruct, cat .fieldDeclarationList]
  | .negatedType => [grouped 0 .left [tok .tilde, type]]
  | .fieldDeclarationList =>
      plain [tok .lbrace, terminated (cat .fieldDeclaration), tok .rbrace]
  | .fieldDeclaration =>
      plain [choice [
        .seq names type,
        .seq (opt (tok .star)) (choice [name, cat .qualifiedType, cat .genericType])],
        opt stringLiteral]
  | .interfaceType =>
      plain [tok .kwInterface, tok .lbrace, terminated interfaceElem, tok .rbrace]
  | .methodElem => plain [name, cat .parameterList, result]
  | .typeElem => plain [separated type (tok .bar)]
  | .mapType =>
      [grouped 0 .right [tok .kwMap, tok .lbracket, type, tok .rbracket, type]]
  | .channelType =>
      [grouped 0 .left [tok .kwChan, type],
       grouped 0 .left [tok .kwChan, tok .arrow, type],
       grouped 6 .left [tok .arrow, tok .kwChan, type]]
  | .functionType => [grouped 0 .right [tok .kwFunc, cat .parameterList, result]]
  | .qualifiedType => plain [name, tok .dot, name]
  | .block => plain [tok .lbrace, opt (cat .statementList), tok .rbrace]
  | .statementList =>
      oneOf [
        sequence [cat .statement, many (.seq terminator (cat .statement)),
          opt (.seq terminator (opt (cat .emptyLabeledStatement)))],
        cat .emptyLabeledStatement]
  | .statement =>
      oneOf [cat .declaration, cat .simpleStatement, cat .returnStatement, cat .goStatement,
        cat .deferStatement, cat .ifStatement, cat .forStatement,
        cat .expressionSwitchStatement, cat .typeSwitchStatement, cat .selectStatement,
        cat .labeledStatement, cat .fallthroughStatement, cat .breakStatement,
        cat .continueStatement, cat .gotoStatement, cat .block, cat .emptyStatement]
  | .emptyStatement => plain [tok .semicolon]
  | .simpleStatement =>
      oneOf [cat .expressionStatement, cat .sendStatement, cat .incStatement, cat .decStatement,
        cat .assignmentStatement, cat .shortVarDeclaration]
  | .expressionStatement => plain [expr]
  | .sendStatement => plain [expr, tok .arrow, expr]
  | .receiveStatement =>
      plain [opt (.seq (cat .expressionList) (choice [tok .assign, tok .define])), expr]
  | .incStatement => plain [expr, tok .inc]
  | .decStatement => plain [expr, tok .dec]
  | .assignmentStatement => plain [cat .expressionList, assignmentMarks, cat .expressionList]
  | .shortVarDeclaration => plain [cat .expressionList, tok .define, cat .expressionList]
  | .labeledStatement => plain [name, tok .colon, cat .statement]
  | .emptyLabeledStatement => plain [name, tok .colon]
  | .fallthroughStatement => [grouped 0 .left [tok .kwFallthrough]]
  | .breakStatement => plain [tok .kwBreak, opt name]
  | .continueStatement => plain [tok .kwContinue, opt name]
  | .gotoStatement => plain [tok .kwGoto, name]
  | .returnStatement => plain [tok .kwReturn, opt (cat .expressionList)]
  | .goStatement => plain [tok .kwGo, expr]
  | .deferStatement => plain [tok .kwDefer, expr]
  | .ifStatement =>
      plain [tok .kwIf, opt (.seq (cat .simpleStatement) (tok .semicolon)), expr, cat .block,
        opt (.seq (tok .kwElse) (choice [cat .block, cat .ifStatement]))]
  | .forStatement =>
      plain [tok .kwFor, opt (choice [expr, cat .forClause, cat .rangeClause]), cat .block]
  | .forClause =>
      plain [opt (cat .simpleStatement), tok .semicolon, opt expr, tok .semicolon,
        opt (cat .simpleStatement)]
  | .rangeClause =>
      plain [opt (.seq (cat .expressionList) (choice [tok .assign, tok .define])),
        tok .kwRange, expr]
  | .expressionSwitchStatement =>
      plain [tok .kwSwitch, opt (.seq (cat .simpleStatement) (tok .semicolon)), opt expr,
        tok .lbrace, many (choice [cat .expressionCase, cat .defaultCase]), tok .rbrace]
  | .expressionCase =>
      plain [tok .kwCase, cat .expressionList, tok .colon, opt (cat .statementList)]
  | .defaultCase => plain [tok .kwDefault, tok .colon, opt (cat .statementList)]
  | .typeSwitchStatement =>
      plain [tok .kwSwitch, cat .typeSwitchHeader, tok .lbrace,
        many (choice [cat .typeCase, cat .defaultCase]), tok .rbrace]
  | .typeSwitchHeader =>
      plain [opt (.seq (cat .simpleStatement) (tok .semicolon)),
        opt (.seq (cat .expressionList) (tok .define)),
        expr, tok .dot, tok .lparen, tok .kwType, tok .rparen]
  | .typeCase =>
      plain [tok .kwCase, separated type (tok .comma), tok .colon, opt (cat .statementList)]
  | .selectStatement =>
      plain [tok .kwSelect, tok .lbrace, many (choice [cat .communicationCase, cat .defaultCase]),
        tok .rbrace]
  | .communicationCase =>
      plain [tok .kwCase, choice [cat .sendStatement, cat .receiveStatement], tok .colon,
        opt (cat .statementList)]
  | .expression =>
      oneOf [cat .unaryExpression, cat .binaryExpression, cat .selectorExpression,
        cat .indexExpression, cat .sliceExpression, cat .callExpression,
        cat .typeAssertionExpression, cat .typeConversionExpression,
        cat .typeInstantiationExpression, name, builtin, cat .compositeLiteral, cat .funcLiteral,
        stringLiteral, tok .intLit, tok .floatLit, tok .imaginaryLit, tok .runeLit, tok .kwNil,
        tok .kwTrue, tok .kwFalse, tok .kwIota, cat .parenthesizedExpression]
  | .parenthesizedExpression => plain [tok .lparen, expr, tok .rparen]
  | .callExpression =>
      [ranked 7 [builtin, cat .specialArgumentList],
       ranked 7 [expr, opt (cat .typeArguments), cat .argumentList]]
  | .variadicArgument => [grouped 0 .right [expr, tok .ellipsis]]
  | .specialArgumentList =>
      plain [tok .lparen,
        opt (sequence [type, many (.seq (tok .comma) expr), opt (tok .comma)]), tok .rparen]
  | .argumentList =>
      plain [tok .lparen,
        opt (.seq (separated (choice [expr, cat .variadicArgument]) (tok .comma))
          (opt (tok .comma))),
        tok .rparen]
  | .selectorExpression => [ranked 7 [expr, tok .dot, name]]
  | .indexExpression => [ranked 7 [expr, tok .lbracket, expr, tok .rbracket]]
  | .sliceExpression =>
      [ranked 7 [expr, tok .lbracket,
        choice [
          sequence [opt expr, tok .colon, opt expr],
          sequence [opt expr, tok .colon, expr, tok .colon, expr]],
        tok .rbracket]]
  | .typeAssertionExpression =>
      [ranked 7 [expr, tok .dot, tok .lparen, type, tok .rparen]]
  | .typeConversionExpression =>
      [weighted (-1) [type, tok .lparen, expr, opt (tok .comma), tok .rparen]]
  | .typeInstantiationExpression =>
      [weighted (-1) [type, tok .lbracket, separated type (tok .comma), opt (tok .comma),
        tok .rbracket]]
  | .compositeLiteral =>
      [ranked (-1) [
        choice [cat .mapType, cat .sliceType, cat .arrayType, cat .implicitLengthArrayType,
          cat .structType, name, cat .genericType, cat .qualifiedType],
        cat .literalValue]]
  | .literalValue =>
      plain [tok .lbrace,
        opt (.seq
          (opt (separated (choice [cat .literalElement, cat .keyedElement]) (tok .comma)))
          (opt (tok .comma))),
        tok .rbrace]
  | .literalElement => oneOf [expr, cat .literalValue]
  | .keyedElement => plain [cat .literalElement, tok .colon, cat .literalElement]
  | .funcLiteral => plain [tok .kwFunc, cat .parameterList, result, cat .block]
  | .unaryExpression =>
      [ranked 6 [
        choice [tok .plus, tok .minus, tok .bang, tok .caret, tok .star, tok .amp, tok .arrow],
        expr]]
  | .binaryExpression =>
      [binary 5 [.star, .slash, .percent, .shl, .shr, .amp, .ampCaret],
       binary 4 [.plus, .minus, .bar, .caret],
       binary 3 [.eq, .ne, .lt, .le, .gt, .ge],
       binary 2 [.andAnd],
       binary 1 [.orOr]]
  | .rawStringLiteral => plain [tok .backquote, tok .rawContent, tok .backquote]
  | .interpretedStringLiteral =>
      plain [tok .quote, many (choice [tok .stringContent, tok .escape]), tok .stringEnd]

/-- The grammar of Go. -/
def spec : Spec :=
  Spec.ofForms Terminal.count Category.file.code (Category.all.map forms)

end Defs

end Go
end GoTags

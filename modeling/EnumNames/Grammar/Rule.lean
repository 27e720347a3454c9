import EnumNames.Grammar.Token

/-!
The grammar of Go declarations as data. It follows the top level of a source
file closely enough to tell apart type, constant and other declarations and to
read the former two; whatever else stands there is passed over as balanced
text. Blanks inside a specification are horizontal, so that a line end closes it
where Go would insert a semicolon.
-/

namespace EnumNames.Grammar

inductive Rule where
  | sourceFile
  | topLevel
  | packageClause
  | topDecl
  | typeDecl
  | typeBody
  | typeGroup
  | groupedType
  | typeSpec
  | typeParams
  | aliasMark
  | typeExpr
  | namedType
  | typeLiteral
  | constDecl
  | constBody
  | constGroup
  | groupedConst
  | constSpec
  | identifierList
  | constType
  | typeName
  | qualifiedIdent
  | constValues
  | exprList
  | expr
  | simpleExpr
  | simpleShape
  | binaryExpr
  | addOp
  | operand
  | exprEnd
  | verbatimExpr
  | exprPiece
  | bareText
  | otherDecl
  | linePieceRun
  | linePiece
  | group
  | parenGroup
  | bracketGroup
  | braceGroup
  | groupBody
  | groupItem
  | groupText
  | intLit
  | charLit
  | stringLit
  | rawString
  | loneSlash
  | lineComment
  | commentText
  | comment
  | inlineComment
  | typeKw
  | constKw
  | otherKw
  | identifier
  | stmtEnd
  | indent
  | pieceGap
  | trivia
  deriving DecidableEq, Repr

/-- Parsing expressions: ordered choice, and repetition that never gives back. -/
inductive Peg where
  | token (t : Token)
  | rule (r : Rule)
  | seq (first second : Peg)
  | choice (first second : Peg)
  | many (item : Peg)
  | optional (item : Peg)
  deriving DecidableEq, Repr

namespace Peg

def lit (c : Char) : Peg := .token (.literal [c])

def all (first : Peg) : List Peg → Peg
  | [] => first
  | next :: rest => .seq first (all next rest)

def any (first : Peg) : List Peg → Peg
  | [] => first
  | next :: rest => .choice first (any next rest)

end Peg

namespace Rule

open Peg

def body : Rule → Peg
  | .sourceFile =>
      all (.rule .trivia) [.rule .packageClause, .many (.rule .topLevel), .rule .trivia]
  | .topLevel => all (.rule .trivia) [.rule .topDecl, .rule .stmtEnd]
  | .packageClause =>
      all (.token (.literal ['p', 'a', 'c', 'k', 'a', 'g', 'e'])) [.rule .indent, .rule .identifier]
  | .topDecl => any (.rule .typeDecl) [.rule .constDecl, .rule .otherDecl]
  | .typeDecl => all (.rule .typeKw) [.rule .indent, .rule .typeBody]
  | .typeBody => any (.rule .typeGroup) [.rule .typeSpec]
  | .typeGroup => all (lit '(') [.rule .trivia, .many (.rule .groupedType), lit ')']
  | .groupedType => all (.rule .typeSpec) [.rule .stmtEnd, .rule .trivia]
  | .typeSpec =>
      all (.rule .identifier)
        [.rule .indent, .optional (.rule .typeParams), .optional (.rule .aliasMark), .rule .typeExpr,
         .rule .indent, .optional (.rule .lineComment)]
  | .typeParams =>
      all (lit '[')
        [.rule .trivia, .rule .identifier,
         .many (all (.rule .trivia) [lit ',', .rule .trivia, .rule .identifier]),
         .token .blanks, .rule .groupBody, lit ']', .rule .indent]
  | .aliasMark => all (lit '=') [.rule .indent]
  | .typeExpr => any (.rule .namedType) [.rule .typeLiteral]
  | .namedType => all (.rule .identifier) [.rule .exprEnd]
  | .typeLiteral => all (.rule .exprPiece) [.many (all (.rule .indent) [.rule .exprPiece])]
  | .constDecl => all (.rule .constKw) [.rule .indent, .rule .constBody]
  | .constBody => any (.rule .constGroup) [.rule .constSpec]
  | .constGroup => all (lit '(') [.rule .trivia, .many (.rule .groupedConst), lit ')']
  | .groupedConst => all (.rule .constSpec) [.rule .stmtEnd, .rule .trivia]
  | .constSpec =>
      all (.rule .identifierList)
        [.rule .indent, .optional (.rule .constType), .optional (.rule .constValues), .rule .indent,
         .optional (.rule .lineComment)]
  | .identifierList =>
      all (.rule .identifier)
        [.many (all (.rule .indent) [lit ',', .rule .trivia, .rule .identifier])]
  | .constType => all (.rule .typeName) [.rule .indent]
  | .typeName => any (.rule .qualifiedIdent) [.rule .identifier]
  | .qualifiedIdent => all (.rule .identifier) [lit '.', .rule .identifier]
  | .constValues => all (lit '=') [.rule .trivia, .rule .exprList]
  | .exprList =>
      all (.rule .expr) [.many (all (.rule .indent) [lit ',', .rule .trivia, .rule .expr])]
  | .expr => any (.rule .simpleExpr) [.rule .verbatimExpr]
  | .simpleExpr => all (.rule .simpleShape) [.rule .exprEnd]
  | .simpleShape => any (.rule .binaryExpr) [.rule .operand]
  | .binaryExpr =>
      all (.rule .operand) [.rule .indent, .rule .addOp, .rule .trivia, .rule .operand]
  | .addOp => any (lit '+') [lit '-']
  | .operand => any (.rule .intLit) [.rule .charLit, .rule .identifier]
  | .exprEnd => .token .expressionEnd
  | .verbatimExpr => all (.rule .exprPiece) [.many (all (.rule .pieceGap) [.rule .exprPiece])]
  | .exprPiece =>
      any (.rule .group)
        [.rule .stringLit, .rule .rawString, .rule .charLit, .rule .bareText, .rule .loneSlash]
  | .bareText => .token .bareText
  | .otherDecl =>
      all (.rule .otherKw) [.rule .linePieceRun, .rule .indent, .optional (.rule .lineComment)]
  | .linePieceRun => .many (all (.rule .pieceGap) [.rule .linePiece])
  | .linePiece => any (.rule .exprPiece) [.rule .inlineComment, .token .separator]
  | .group => any (.rule .parenGroup) [.rule .bracketGroup, .rule .braceGroup]
  | .parenGroup => all (lit '(') [.rule .groupBody, lit ')']
  | .bracketGroup => all (lit '[') [.rule .groupBody, lit ']']
  | .braceGroup => all (lit '\x7b') [.rule .groupBody, lit '\x7d']
  | .groupBody => .many (.rule .groupItem)
  | .groupItem =>
      any (.rule .group)
        [.rule .stringLit, .rule .rawString, .rule .charLit, .rule .comment, .rule .groupText,
         .rule .loneSlash]
  | .groupText => .token .groupText
  | .intLit => .token .integer
  | .charLit => .token .rune
  | .stringLit => .token .string
  | .rawString => .token .rawString
  | .loneSlash => .token .slash
  | .lineComment =>
      all (.rule .commentText) [.many (all (.rule .indent) [.rule .commentText])]
  | .commentText => .token .shortComment
  | .comment => .token .comment
  | .inlineComment => .token .inlineComment
  | .typeKw => .token (.keyword [['t', 'y', 'p', 'e']])
  | .constKw => .token (.keyword [['c', 'o', 'n', 's', 't']])
  | .otherKw =>
      .token (.keyword [['i', 'm', 'p', 'o', 'r', 't'], ['v', 'a', 'r'], ['f', 'u', 'n', 'c']])
  | .identifier => .token .identifier
  | .stmtEnd => all (.rule .indent) [.token .semicolon]
  | .indent => .token .indent
  | .pieceGap => .token .gap
  | .trivia => .token .trivia

/-- The rules by the names that syntax trees are shown with. The last entry is a second name for
identifiers. -/
def named : List (String × Rule) :=
  [("source_file", .sourceFile), ("top_level", .topLevel), ("package_clause", .packageClause),
   ("top_decl", .topDecl), ("type_decl", .typeDecl), ("type_body", .typeBody),
   ("type_group", .typeGroup), ("grouped_type", .groupedType), ("type_spec", .typeSpec),
   ("type_params", .typeParams), ("alias_mark", .aliasMark), ("type_expr", .typeExpr),
   ("named_type", .namedType), ("type_literal", .typeLiteral), ("const_decl", .constDecl),
   ("const_body", .constBody), ("const_group", .constGroup), ("grouped_const", .groupedConst),
   ("const_spec", .constSpec), ("identifier_list", .identifierList), ("const_type", .constType),
   ("type_name", .typeName), ("qualified_ident", .qualifiedIdent), ("const_values", .constValues),
   ("expr_list", .exprList), ("expr", .expr), ("simple_expr", .simpleExpr),
   ("simple_shape", .simpleShape), ("binary_expr", .binaryExpr), ("add_op", .addOp),
   ("operand", .operand), ("expr_end", .exprEnd), ("opaque_expr", .verbatimExpr),
   ("expr_piece", .exprPiece), ("bare_text", .bareText), ("other_decl", .otherDecl),
   ("line_piece_run", .linePieceRun), ("line_piece", .linePiece), ("group", .group),
   ("paren_group", .parenGroup), ("bracket_group", .bracketGroup), ("brace_group", .braceGroup),
   ("group_body", .groupBody), ("group_item", .groupItem), ("group_text", .groupText),
   ("int_lit", .intLit), ("char_lit", .charLit), ("string_lit", .stringLit),
   ("raw_string", .rawString), ("lone_slash", .loneSlash), ("line_comment", .lineComment),
   ("comment_text", .commentText), ("comment", .comment), ("inline_comment", .inlineComment),
   ("type_kw", .typeKw), ("const_kw", .constKw), ("other_kw", .otherKw),
   ("identifier", .identifier), ("stmt_end", .stmtEnd), ("hs", .indent), ("piece_gap", .pieceGap),
   ("_", .trivia), ("bare_type_name", .identifier)]

def ofName? (name : String) : Option Rule := named.lookup name

def name (r : Rule) : String := ((named.find? (·.2 == r)).map (·.1)).getD ""

end Rule
end EnumNames.Grammar

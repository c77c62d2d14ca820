import AspAtlas.Grammar.Recognizer
/-!
The grammar of answer set programs, as data. The names of its rules are what messages about wrong
programs list; parts without a name of their own are plain definitions.
-/
namespace AspAtlas.Grammar

/-- The named rules, in the order in which messages list them. -/
inductive Rule where
  | finish
  | program
  | includes
  | constDef
  | defined
  | showAll
  | showSignature
  | showTerm
  | programPart
  | external
  | optimize
  | optimizeKind
  | optimizeElement
  | weakConstraint
  | weightSpec
  | priority
  | normalRule
  | head
  | choice
  | disjunction
  | headLiteral
  | body
  | conditionalLiteral
  | aggregateLiteral
  | aggregateFunction
  | aggregateElement
  | condition
  | leftGuard
  | rightGuard
  | literal
  | naf
  | notKeyword
  | boolean
  | comparison
  | comparisonOp
  | symbolicAtom
  | classicalNegation
  | terms
  | arguments
  | term
  | binaryOp
  | negation
  | tuple
  | absolute
  | function
  | identifier
  | var
  | number
  | string
  | supremum
  | infimum
deriving DecidableEq, Repr

namespace Rule

/-- Every rule, in the order in which messages list them. -/
def all : List Rule :=
  [finish, program, includes, constDef, defined, showAll, showSignature, showTerm, programPart,
    external, optimize, optimizeKind, optimizeElement, weakConstraint, weightSpec, priority,
    normalRule, head, choice, disjunction, headLiteral, body, conditionalLiteral, aggregateLiteral,
    aggregateFunction, aggregateElement, condition, leftGuard, rightGuard, literal, naf, notKeyword,
    boolean, comparison, comparisonOp, symbolicAtom, classicalNegation, terms, arguments, term,
    binaryOp, negation, tuple, absolute, function, identifier, var, number, string, supremum,
    infimum]

/-- The name of a rule in messages. -/
def name : Rule → String
  | finish => "EOI"
  | program => "program"
  | includes => "include"
  | constDef => "const_def"
  | defined => "defined"
  | showAll => "show_all"
  | showSignature => "show_signature"
  | showTerm => "show_term"
  | programPart => "program_part"
  | external => "external"
  | optimize => "optimize"
  | optimizeKind => "optimize_kind"
  | optimizeElement => "optimize_element"
  | weakConstraint => "weak_constraint"
  | weightSpec => "weight_spec"
  | priority => "priority"
  | normalRule => "normal_rule"
  | head => "head"
  | choice => "choice"
  | disjunction => "disjunction"
  | headLiteral => "head_literal"
  | body => "body"
  | conditionalLiteral => "conditional_literal"
  | aggregateLiteral => "aggregate_literal"
  | aggregateFunction => "aggregate_function"
  | aggregateElement => "aggregate_element"
  | condition => "condition"
  | leftGuard => "left_guard"
  | rightGuard => "right_guard"
  | literal => "literal"
  | naf => "naf"
  | notKeyword => "not_keyword"
  | boolean => "boolean"
  | comparison => "comparison"
  | comparisonOp => "comparison_op"
  | symbolicAtom => "symbolic_atom"
  | classicalNegation => "classical_negation"
  | terms => "terms"
  | arguments => "arguments"
  | term => "term"
  | binaryOp => "binary_op"
  | negation => "negation"
  | tuple => "tuple"
  | absolute => "absolute"
  | function => "function"
  | identifier => "identifier"
  | var => "variable"
  | number => "number"
  | string => "string"
  | supremum => "supremum"
  | infimum => "infimum"

end Rule

open AspAtlas.Grammar.Expr

/-- A word character. -/
def wordChar : Expr Rule := char Surface.isWordChar

/-- Any character. -/
def anyChar : Expr Rule := char fun _ => true

/-- The colon before a condition. -/
def condSep : Expr Rule := parts [text ":", absent (text "-"), absent (text "~")]

/-- A condition behind its colon, if there is one. -/
def conditionPart : Expr Rule := opt (seq condSep (rule .condition))

/-- An operand. -/
def unaryTerm : Expr Rule :=
  oneOf [rule .negation, rule .tuple, rule .absolute, rule .function, rule .var, rule .number,
    rule .string, rule .supremum, rule .infimum]

/-- A parenthesised argument list, if there is one. -/
def argumentPart : Expr Rule := opt (parts [text "(", opt (rule .arguments), text ")"])

/-- A statement. -/
def statement : Expr Rule :=
  oneOf [rule .includes, rule .constDef, rule .defined, rule .showAll, rule .showSignature,
    rule .showTerm, rule .programPart, rule .external, rule .optimize, rule .weakConstraint,
    rule .normalRule]

/-- An element of a body. -/
def bodyLiteral : Expr Rule := alt (rule .aggregateLiteral) (rule .conditionalLiteral)

/-- What a literal asserts. -/
def atom : Expr Rule := oneOf [rule .boolean, rule .comparison, rule .symbolicAtom]

/-- The underscores that a word may start with. -/
def underscores : Expr Rule := rep (text "_")

/-- What each rule accepts. -/
def definition : Rule → Definition Rule
  | .finish => ⟨.finish, false⟩
  | .program => ⟨parts [text "", rep statement, rule .finish], false⟩
  | .includes => ⟨parts [text "#include", rule .string, text "."], false⟩
  | .constDef => ⟨parts [text "#const", rule .identifier, text "=", rule .term, text ".",
      opt (parts [text "[", rule .identifier, text "]"])], false⟩
  | .defined => ⟨parts [text "#defined", rule .identifier, text "/", rule .number, text "."], false⟩
  | .showAll => ⟨parts [text "#show", text "."], false⟩
  | .showSignature =>
    ⟨parts [text "#show", rule .identifier, text "/", rule .number, text "."], false⟩
  | .showTerm => ⟨parts [text "#show", rule .term, opt (seq condSep (rule .body)), text "."], false⟩
  | .programPart => ⟨parts [text "#program", rule .identifier,
      opt (parts [text "(", opt (separated (text ",") (rule .identifier)), text ")"]),
        text "."], false⟩
  | .external => ⟨parts [text "#external", rule .symbolicAtom, conditionPart, text ".",
      opt (parts [text "[", rule .term, text "]"])], false⟩
  | .optimize => ⟨parts [rule .optimizeKind, text "\x7b",
      opt (separated (text ";") (rule .optimizeElement)), text "\x7d", text "."], false⟩
  | .optimizeKind => ⟨spellings ["#minimize", "#maximize"], true⟩
  | .optimizeElement => ⟨seq (rule .weightSpec) conditionPart, false⟩
  | .weakConstraint =>
    ⟨parts [text ":~", rule .body, text ".", text "[", rule .weightSpec, text "]"], false⟩
  | .weightSpec =>
    ⟨parts [rule .term, opt (rule .priority), rep (seq (text ",") (rule .term))], false⟩
  | .priority => ⟨seq (text "@") (rule .term), false⟩
  | .normalRule => ⟨alt
      (parts [rule .head, opt (seq (text ":-") (opt (rule .body))), text "."])
      (parts [text ":-", opt (rule .body), text "."]), false⟩
  | .head => ⟨alt (rule .choice) (rule .disjunction), false⟩
  | .choice => ⟨parts [opt (rule .leftGuard), text "\x7b",
      opt (separated (text ";") (rule .headLiteral)), text "\x7d", opt (rule .rightGuard)], false⟩
  | .disjunction => ⟨separated (spellings [";", "|"]) (rule .headLiteral), false⟩
  | .headLiteral => ⟨seq (rule .literal) conditionPart, false⟩
  | .body => ⟨separated (spellings [",", ";"]) bodyLiteral, false⟩
  | .conditionalLiteral => ⟨seq (rule .literal) conditionPart, false⟩
  | .aggregateLiteral => ⟨parts [opt (rule .naf), opt (rule .leftGuard), rule .aggregateFunction,
      text "\x7b", opt (separated (text ";") (rule .aggregateElement)), text "\x7d",
      opt (rule .rightGuard)], false⟩
  | .aggregateFunction => ⟨spellings ["#count", "#sum+", "#sum", "#min", "#max"], true⟩
  | .aggregateElement =>
    ⟨alt (seq (rule .terms) conditionPart) (seq condSep (rule .condition)), false⟩
  | .condition => ⟨separated (text ",") (rule .literal), false⟩
  | .leftGuard => ⟨seq (rule .term) (opt (rule .comparisonOp)), false⟩
  | .rightGuard => ⟨seq (opt (rule .comparisonOp)) (rule .term), false⟩
  | .literal => ⟨seq (opt (rule .naf)) atom, false⟩
  | .naf => ⟨seq (rule .notKeyword) (opt (rule .notKeyword)), false⟩
  | .notKeyword => ⟨seq (text "not") (absent wordChar), true⟩
  | .boolean => ⟨spellings ["#true", "#false"], true⟩
  | .comparison => ⟨parts [rule .term, rule .comparisonOp, rule .term], false⟩
  | .comparisonOp => ⟨spellings ["!=", "<=", ">=", "==", "=", "<", ">"], true⟩
  | .symbolicAtom =>
    ⟨parts [opt (rule .classicalNegation), rule .identifier, argumentPart], false⟩
  | .classicalNegation => ⟨text "-", false⟩
  | .terms => ⟨separated (text ",") (rule .term), false⟩
  | .arguments => ⟨separated (text ";") (rule .terms), false⟩
  | .term => ⟨separated (rule .binaryOp) unaryTerm, false⟩
  | .binaryOp => ⟨spellings ["..", "**", "+", "-", "*", "/", "\\", "&", "?", "^"], true⟩
  | .negation => ⟨seq (text "-") unaryTerm, false⟩
  | .tuple => ⟨parts [text "(", opt (rule .arguments), opt (text ","), text ")"], false⟩
  | .absolute => ⟨parts [text "|", rule .term, text "|"], false⟩
  | .function => ⟨seq (rule .identifier) argumentPart, false⟩
  | .identifier => ⟨parts [underscores, char Char.isLower, rep wordChar], true⟩
  | .var => ⟨alt (parts [underscores, char Char.isUpper, rep wordChar])
      (seq (text "_") (absent wordChar)), true⟩
  | .number => ⟨seq (char Char.isDigit) (rep (char Char.isDigit)), true⟩
  | .string => ⟨parts [text "\"",
      rep (alt (seq (text "\\") anyChar) (seq (absent (text "\"")) anyChar)), text "\""], true⟩
  | .supremum => ⟨spellings ["#supremum", "#sup"], true⟩
  | .infimum => ⟨spellings ["#infimum", "#inf"], true⟩

end AspAtlas.Grammar

import Unminify.Rule.Table

/-!
# The built-in rules

More specific shapes come before the general ones they overlap with, since the first rule that
matches is applied.
-/

namespace Unminify.RuleTable

/-- The built-in rules, in order. -/
def builtinSpecs : List RuleSpec :=
  [
    -- Spelled-out constants.
    ⟨"not-one", "!1", "false"⟩,
    ⟨"not-zero", "!0", "true"⟩,
    ⟨"void-zero", "void 0", "undefined"⟩,
    -- Expressions used for control flow.
    ⟨"and-statement", "expression1 && expression2;", "if (expression1) \x7b expression2; \x7d"⟩,
    ⟨"or-statement", "expression1 || expression2;", "if (!expression1) \x7b expression2; \x7d"⟩,
    ⟨"ternary-statement",
      "expression1 ? expression2 : expression3;",
      "if (expression1) \x7b expression2; \x7d else \x7b expression3; \x7d"⟩,
    -- Conditionals. An `else if` keeps its place in the chain; the inner `if` gets its braces when it is
    -- reached itself.
    ⟨"if-else-if-else-braces",
      "if (expression1) statement1; else if (expression2) statement2; else statement3;",
      "if (expression1) \x7b statement1; \x7d else if (expression2) statement2; else statement3;"⟩,
    ⟨"if-else-if-braces",
      "if (expression1) statement1; else if (expression2) statement2;",
      "if (expression1) \x7b statement1; \x7d else if (expression2) statement2;"⟩,
    ⟨"if-else-braces",
      "if (expression1) statement1; else statement2;",
      "if (expression1) \x7b statement1; \x7d else \x7b statement2; \x7d"⟩,
    ⟨"if-braces", "if (expression1) statement1;", "if (expression1) \x7b statement1; \x7d"⟩,
    -- Loops.
    ⟨"while-braces", "while (expression1) statement1;", "while (expression1) \x7b statement1; \x7d"⟩,
    ⟨"do-while-braces",
      "do statement1; while (expression1);",
      "do \x7b statement1; \x7d while (expression1);"⟩,
    ⟨"for-init-test-update-braces",
      "for (expression1.orDeclaration; expression2; expression3) statement1;",
      "for (expression1.orDeclaration; expression2; expression3) \x7b statement1; \x7d"⟩,
    ⟨"for-init-test-braces",
      "for (expression1.orDeclaration; expression2;) statement1;",
      "for (expression1.orDeclaration; expression2;) \x7b statement1; \x7d"⟩,
    ⟨"for-init-update-braces",
      "for (expression1.orDeclaration;; expression3) statement1;",
      "for (expression1.orDeclaration;; expression3) \x7b statement1; \x7d"⟩,
    ⟨"for-init-braces",
      "for (expression1.orDeclaration;;) statement1;",
      "for (expression1.orDeclaration;;) \x7b statement1; \x7d"⟩,
    ⟨"for-test-update-braces",
      "for (; expression2; expression3) statement1;",
      "for (; expression2; expression3) \x7b statement1; \x7d"⟩,
    ⟨"for-test-braces", "for (; expression2;) statement1;", "for (; expression2;) \x7b statement1; \x7d"⟩,
    ⟨"for-update-braces", "for (;; expression3) statement1;", "for (;; expression3) \x7b statement1; \x7d"⟩,
    ⟨"for-braces", "for (;;) statement1;", "for (;;) \x7b statement1; \x7d"⟩,
    ⟨"for-in-braces",
      "for (expression1.orDeclaration in expression2) statement1;",
      "for (expression1.orDeclaration in expression2) \x7b statement1; \x7d"⟩,
    ⟨"for-of-braces",
      "for (expression1.orDeclaration of expression2) statement1;",
      "for (expression1.orDeclaration of expression2) \x7b statement1; \x7d"⟩,
    -- The module interop helper, under its usual name.
    ⟨"interop-require-default",
      "function placeholder1(placeholder2) \x7b return placeholder2 && placeholder2.__esModule ? placeholder2 : \x7b default: placeholder2 \x7d; \x7d",
      "function _interopRequireDefault(obj) \x7b return obj && obj.__esModule ? obj : \x7b default: obj \x7d; \x7d"⟩]

/-- The table of the built-in rules. -/
def builtin : Except RuleError RuleTable := pushSpecs {} builtinSpecs

end Unminify.RuleTable

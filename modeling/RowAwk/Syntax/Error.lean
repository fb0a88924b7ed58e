import RowAwk.Syntax.Token

/-!
Why a source text is refused.

A text fails in one of four ways: it holds something that is no token, a token stands where
another was due, it ends too early, or it uses a form that the language leaves out on purpose.
-/

namespace RowAwk.Syntax

/-- What a source text had to continue with. -/
inductive Expected where
  | expression | separator | endOfExpression | elseBranch | closeParen | closeBracket
deriving DecidableEq, Repr

def Expected.text : Expected → String
  | .expression => "expression"
  | .separator => "';' or newline"
  | .endOfExpression => "end of expression"
  | .elseBranch => "'else'"
  | .closeParen => "')'"
  | .closeBracket => "']'"

/-- A form that is read only to be refused. -/
inductive Unsupported where
  | compoundTarget | chainedComparison | computedCallee | starArgument | lateArgument
deriving DecidableEq, Repr

def Unsupported.text : Unsupported → String
  | .compoundTarget => "assignment target must be a single name"
  | .chainedComparison => "chained comparisons are not supported"
  | .computedCallee => "only named functions may be called"
  | .starArgument => "* and ** are not supported in function calls"
  | .lateArgument => "positional argument follows keyword argument"

inductive SyntaxError where
  | unrecognized (text : String) (span : Span)
  | unexpected (found : Token) (span : Span) (expected : Expected)
  | unexpectedEnd (expected : Expected)
  | unsupported (form : Unsupported) (span : Span)
deriving DecidableEq, Repr

def SyntaxError.message : SyntaxError → String
  | .unrecognized text span => "unrecognized token '" ++ text ++ "' at " ++ span.text
  | .unexpected found span expected =>
    "unexpected '" ++ found.text ++ "' at " ++ span.text ++ ", expected " ++ expected.text
  | .unexpectedEnd expected => "unexpected end of input, expected " ++ expected.text
  | .unsupported form span => form.text ++ " at " ++ span.text

end RowAwk.Syntax

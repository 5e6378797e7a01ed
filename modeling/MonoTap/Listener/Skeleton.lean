import MonoTap.Callback.Bucket
import MonoTap.Listener.Reindent

/-!
# The listener call

The text of a call of `tap` with a new listener: one method for each bucket, in a given order, with
the statements of the bucket as its body.
-/

set_option autoImplicit false

namespace MonoTap.Listener

open Callback (Bucket)

/-- The text of a statement, and the indentation of the line that it started on. -/
structure StatementText where
  text : String
  indent : Nat
  deriving DecidableEq, Repr

/-- The lines of a statement under an indentation. -/
def StatementText.lines (s : StatementText) (start : List Char) : List (List Char) :=
  reindent start s.indent s.text.toList

/-- The names in a listener: the type of the elements and the parameters of its methods. -/
structure Names where
  elementType : String
  value : String
  error : String
  termination : String
  deriving DecidableEq, Repr

/-- The parameter of the method for a bucket, with its type. -/
def Names.parameter (names : Names) : Bucket → String
  | .value => names.elementType ++ " " ++ names.value
  | .error => "Throwable " ++ names.error
  | .termination => "SignalType " ++ names.termination

/-- How a listener is laid out: the indentation of the line that the call stands on, one step of
indentation, the order of the methods, whether they are marked as overriding, and the text between
two lines. -/
structure Layout where
  base : List Char
  step : List Char
  order : List Bucket
  override : Bool
  newline : List Char
  deriving Repr

namespace Layout

/-- The indentation of the methods. -/
def member (l : Layout) : List Char := l.base ++ l.step

/-- The indentation of the statements. -/
def body (l : Layout) : List Char := l.member ++ l.step

end Layout

/-- The lines of the method for a bucket. -/
def methodLines (layout : Layout) (names : Names) (statements : List StatementText)
    (bucket : Bucket) : List (List Char) :=
  (if layout.override then [layout.member ++ "@Override".toList] else []) ++
    [layout.member ++ ("public void " ++ bucket.method ++ "(" ++ names.parameter bucket ++
      ") \x7b").toList] ++
    statements.flatMap (·.lines layout.body) ++ [layout.member ++ ['}']]

/-- The lines of the methods, with an empty line between two of them. -/
def membersLines (layout : Layout) (names : Names) (bodies : Bucket → List StatementText) :
    List Bucket → List (List Char)
  | [] => []
  | [bucket] => methodLines layout names (bodies bucket) bucket
  | bucket :: buckets =>
    methodLines layout names (bodies bucket) bucket ++ [] ::
      membersLines layout names bodies buckets

/-- The lines of the call. The first continues the line that the call stands on. -/
def callLines (layout : Layout) (names : Names) (bodies : Bucket → List StatementText) :
    List (List Char) :=
  "tap(() -> new DefaultSignalListener<>() \x7b".toList ::
    membersLines layout names bodies layout.order ++ [layout.base ++ "\x7d)".toList]

/-- The text of the call. -/
def render (layout : Layout) (names : Names) (bodies : Bucket → List StatementText) : String :=
  String.ofList (Text.joinWith layout.newline (callLines layout names bodies))

end MonoTap.Listener

import RowAwk.Compile.Error

/-!
Signatures of functions, and how the arguments of a call are matched to their parameters.

Positional arguments fill the parameters from the left, and further ones go to the variadic
parameter if there is one. Arguments by name fill what is left. In the end every parameter has to
have exactly one argument.
-/

namespace RowAwk.Compile

/-- A function's name and parameters; the last one may take any number of arguments. -/
structure Signature where
  name : String
  parameters : List String
  variadic : Option String
deriving DecidableEq, Repr

/-- The arguments of a call by parameter. -/
structure Bound (α : Type) where
  values : List α
  rest : List α

namespace Signature

def text (s : Signature) : String :=
  s.name ++ "(" ++ ", ".intercalate (s.parameters ++ (s.variadic.map ("*" ++ ·)).toList) ++ ")"

variable {α : Type}

/-- A parameter and the argument it has got so far. -/
abbrev Slot (α : Type) := String × Option α

/-- The parameters after the positional arguments. -/
def slots : List String → List α → List (Slot α)
  | [], _ => []
  | p :: ps, [] => (p, none) :: slots ps []
  | p :: ps, e :: es => (p, some e) :: slots ps es

/-- Gives a parameter its argument. -/
def fill (name : String) (value : α) : List (Slot α) → Except ArgumentFault (List (Slot α))
  | [] => .error (.unknownKeyword name)
  | (p, v) :: rest =>
    if p = name then
      match v with
      | some _ => .error (.givenTwice name)
      | none => .ok ((p, some value) :: rest)
    else (fill name value rest).map ((p, v) :: ·)

/-- Gives the parameters the arguments by name, in order. -/
def fillAll : List (String × α) → List (Slot α) → Except ArgumentFault (List (Slot α))
  | [], slots => .ok slots
  | (name, value) :: rest, slots => do fillAll rest (← fill name value slots)

/-- The arguments of all parameters. -/
def collect : List (Slot α) → Except ArityFault (List α)
  | [] => .ok []
  | (p, none) :: _ => .error (.missing p)
  | (_, some value) :: rest => (collect rest).map (value :: ·)

/-- Matches the arguments of a call to the parameters. -/
def bind (s : Signature) (positional : List α) (keywords : List (String × α)) :
    Except CompileError (Bound α) :=
  let rest := positional.drop s.parameters.length
  if s.variadic.isNone ∧ rest ≠ [] then
    .error (.arity s.name (.tooMany s.parameters.length positional.length))
  else match fillAll keywords (slots s.parameters positional) with
    | .error fault => .error (.argument s.name fault)
    | .ok filled =>
      match collect filled with
      | .error fault => .error (.arity s.name fault)
      | .ok values => .ok ⟨values, rest⟩

end Signature

end RowAwk.Compile

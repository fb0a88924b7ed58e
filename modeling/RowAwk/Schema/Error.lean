/-! Why a header, or a description of a stream, is refused. -/

namespace RowAwk.Schema

inductive SchemaError where
  | missingMarker (header : String)
  | invalidField (field : String)
  | unknownType (name : String)
  | invalidZone (zone : String)
  | invalidSize (size : String)
  | invalidMetadata (text : String)
  | conflictingKinds (first second : String)
  | ambiguousDirection (entry : String)
  | unknownModifier (modifier : String)
  | conflictingNames (names : List String)
  | unknownOrderField (name : String)
deriving DecidableEq, Repr

def SchemaError.message : SchemaError → String
  | .missingMarker header => "header must start with '#', but was '" ++ header ++ "'"
  | .invalidField field => "invalid field '" ++ field ++ "'"
  | .unknownType name => "unknown field type '" ++ name ++ "'"
  | .invalidZone zone => "invalid header zone '" ++ zone ++ "'"
  | .invalidSize size => "invalid size '" ++ size ++ "'"
  | .invalidMetadata text => "invalid metadata '" ++ text ++ "'"
  | .conflictingKinds first second =>
    "conflicting sort types '" ++ first ++ "' and '" ++ second ++ "'"
  | .ambiguousDirection entry => "ambiguous order direction in '" ++ entry ++ "'"
  | .unknownModifier modifier => "unknown order modifier '" ++ modifier ++ "'"
  | .conflictingNames names =>
    "conflicting field names " ++ ", ".intercalate (names.map fun n => "'" ++ n ++ "'")
  | .unknownOrderField name => "unknown ordering field name '" ++ name ++ "'"

end RowAwk.Schema
